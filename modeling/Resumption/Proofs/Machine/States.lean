import Resumption.Proofs.Machine.Bodies
import Resumption.Proofs.Machine.Paths

/-!
# Keys of method states

A method state is made by a call of `create`, which takes its key from the stack. In disciplined code
(`Disciplined`) the key is pushed right before, as constants, and what comes in between only moves
values above it; labels have no place there, so it is not entered from elsewhere.

* **`Step.execute_moves`**: how many values an instruction takes from the stack, and leaves there.
* **`Body.Tracked`** is what an activation satisfies inside of such code. A step keeps it
  (`Body.Tracked.advance`).
* **`Discipline.keyed_kept`**: whatever code does that was loaded under this discipline, every method
  state has a key that the discipline admits.
-/

namespace Resumption

variable {α β : Type} {N : List (MethodRef × Native)} {K : FrameKey → Prop}

/-! ## Values taken and left -/

namespace Step

/-- If the computation ends, it took some values from the stack and left others there. -/
def Takes (takes leaves : Nat) (x : Step α) : Prop :=
  ∀ a m r b m', x a m = .ok (r, b) m' →
    takes ≤ a.stack.length ∧ ∃ left : List Value, left.length = leaves ∧
      b.stack = left ++ a.stack.drop takes

namespace Takes

variable {n k leaves : Nat} {x : Step α}

theorem pure (r : α) : Takes 0 0 (Pure.pure r : Step α) := by
  intro a m r' b m' h
  cases h
  exact ⟨Nat.zero_le _, [], rfl, rfl⟩

/-- Takes values, then takes more of them and leaves some. -/
theorem bind {f : α → Step β} (hx : Takes n 0 x) (hf : ∀ r, Takes k leaves (f r)) :
    Takes (n + k) leaves (x >>= f) := by
  intro a m r c m' h
  simp only [Bind.bind, StateT.bind, EStateM.bind] at h
  split at h
  · rename_i result m₁ hxm
    obtain ⟨s, b⟩ := result
    obtain ⟨hn, left, hleft, hb⟩ := hx a m s b m₁ hxm
    obtain ⟨hk, left', hleft', hc⟩ := hf s b m₁ r c m' h
    cases List.length_eq_zero_iff.mp hleft
    rw [hb, List.nil_append] at hk hc
    rw [List.length_drop] at hk
    rw [List.drop_drop] at hc
    exact ⟨by omega, left', hleft', hc⟩
  · cases h

/-- What comes after it leaves the stack alone. -/
theorem andNext {x : Step Unit} (hx : Takes n leaves x) : Takes n leaves (Step.andNext x) := by
  intro a m r c m' h
  simp only [Step.andNext, Bind.bind, StateT.bind, EStateM.bind] at h
  split at h
  · rename_i result m₁ hxm
    cases h
    exact hx a m _ _ _ hxm
  · cases h

theorem lift (y : Run α) : Takes 0 0 (StateT.lift y : Step α) := by
  intro a m r b m' h
  simp only [StateT.lift, Bind.bind, EStateM.bind] at h
  split at h
  · cases h
    exact ⟨Nat.zero_le _, [], rfl, rfl⟩
  · cases h

theorem fault (f : CodeFault) : Takes n leaves (Step.fault f : Step α) := by
  intro a m r b m' h
  cases h

theorem push (v : Value) : Takes 0 1 (Step.push v) := by
  intro a m r b m' h
  cases h
  exact ⟨Nat.zero_le _, [v], rfl, rfl⟩

theorem pop : Takes 1 0 Step.pop := by
  intro a m r b m' h
  obtain ⟨method, locals, stack, index⟩ := a
  cases stack with
  | nil => cases h
  | cons v rest =>
    cases h
    exact ⟨by simp, [], rfl, rfl⟩

theorem popInt : Takes 1 0 Step.popInt := by
  refine bind (k := 0) pop fun v => ?_
  cases v with
  | int n => exact pure n
  | _ => exact fault _

theorem popRef : Takes 1 0 Step.popRef := by
  refine bind (k := 0) pop fun v => ?_
  cases v with
  | ref r => exact pure (some r)
  | null => exact pure none
  | _ => exact fault _

theorem load (slot : Nat) : Takes 0 0 (Step.load slot) := by
  intro a m r b m' h
  simp only [Step.load, Bind.bind, StateT.bind, EStateM.bind, MonadState.get, getThe,
    MonadStateOf.get, StateT.get, Pure.pure, EStateM.pure] at h
  cases hv : a.locals.getD slot .top with
  | top =>
    rw [hv] at h
    cases h
  | _ =>
    rw [hv] at h
    cases h
    exact ⟨Nat.zero_le _, [], rfl, rfl⟩

theorem dup : Takes 1 2 (Step.rearrange .dup) := by
  intro a m r b m' h
  obtain ⟨method, locals, stack, index⟩ := a
  cases stack with
  | nil => cases h
  | cons v rest =>
    cases v <;> cases h <;> exact ⟨by simp, [_, _], rfl, rfl⟩

end Takes

end Step

namespace Run

/-- Every result of the computation satisfies `Q`. -/
def Yields (Q : α → Prop) (x : Run α) : Prop := ∀ m r m', x m = .ok r m' → Q r

theorem Yields.pure {Q : α → Prop} {r : α} (h : Q r) : Yields Q (Pure.pure r) := by
  intro m r' m' hr
  cases hr
  exact h

theorem Yields.bind {Q : α → Prop} {x : Run β} {f : β → Run α} (hf : ∀ b, Yields Q (f b)) :
    Yields Q (x >>= f) := by
  intro m r m' h
  simp only [Bind.bind, EStateM.bind] at h
  split at h
  · exact hf _ _ _ _ h
  · cases h

end Run

namespace Native

/-- Natives that give an object back. -/
def makes : Native → Bool
  | .createData | .allocate _ => true
  | _ => false

theorem makes_some {native : Native} (h : native.makes = true) (arguments : List Value) :
    Run.Yields (fun r => r.isSome = true) (native.run arguments) := by
  cases native with
  | createData =>
    exact .bind fun _ => .bind fun _ => .bind fun _ => .bind fun _ => .bind fun _ =>
      .bind fun _ => .pure rfl
  | allocate element => exact .bind fun _ => .bind fun _ => .bind fun _ => .pure rfl
  | _ => cases h

end Native

/-- How many values an instruction takes from the stack and leaves there, if all it does is to move
values or to make an object. -/
def Instruction.moves? (N : List (MethodRef × Native)) : Instruction → Option (Nat × Nat)
  | .pushNull | .pushInt _ | .load _ _ => some (0, 1)
  | .stack .dup => some (1, 2)
  | .newArray _ | .newRefArray _ => some (1, 1)
  | .arrayStore _ => some (3, 0)
  | .invoke .static ref =>
    if (N.lookup ref).any Native.makes then some (ref.descriptor.parameters.length, 1) else none
  | _ => none

namespace Instruction

variable (N : List (MethodRef × Native))

@[simp] theorem moves?_pushInt (n : Int32) : (pushInt n).moves? N = some (0, 1) := rfl

@[simp] theorem moves?_load (kind : ValueKind) (slot : Nat) :
    (load kind slot).moves? N = some (0, 1) := rfl

@[simp] theorem moves?_dup : (stack .dup).moves? N = some (1, 2) := rfl

@[simp] theorem moves?_arrayStore (element : ElementKind) :
    (arrayStore element).moves? N = some (3, 0) := rfl

@[simp] theorem moves?_static (ref : MethodRef) :
    (invoke .static ref).moves? N =
      if (N.lookup ref).any Native.makes then some (ref.descriptor.parameters.length, 1)
      else none := rfl

end Instruction

namespace Step

variable {run : MethodRunner} {callees : Callees} {a b : Activation} {m m' : Machine}

/-- A call of a native that makes an object. -/
theorem takes_makes {ref : MethodRef} {progress : Progress}
    (hmakes : (m.natives.lookup ref).any Native.makes = true)
    (h : execute (Run.callees run) (.invoke .static ref) a m = .ok (progress, b) m') :
    progress = .next ∧ ref.descriptor.parameters.length ≤ a.stack.length ∧
      ∃ left : List Value, left.length = 1 ∧
        b.stack = left ++ a.stack.drop ref.descriptor.parameters.length := by
  obtain ⟨native, hnative, hmakes⟩ := (Option.any_eq_true ..).mp hmakes
  have hcount : ref.descriptor.parameters.length =
      ref.descriptor.parameters.length + if CallKind.static = .static then 0 else 1 := rfl
  by_cases henough : ref.descriptor.parameters.length ≤ a.stack.length
  · rw [execute_invoke_eq hcount henough] at h
    simp only [Run.callees, call_native hnative] at h
    split at h
    · rename_i result m₁ hresult
      obtain ⟨v, rfl⟩ := Option.isSome_iff_exists.mp
        (Native.makes_some hmakes _ _ _ _ hresult)
      cases h
      exact ⟨rfl, henough, [v], rfl, rfl⟩
    · cases h
  · rw [execute_invoke_missing hcount (Nat.not_le.mp henough)] at h
    cases h

/-- **Values that an instruction takes and leaves.** -/
theorem execute_moves {i : Instruction} {takes leaves : Nat} {progress : Progress}
    (hi : i.moves? m.natives = some (takes, leaves))
    (h : execute (Run.callees run) i a m = .ok (progress, b) m') :
    progress = .next ∧ takes ≤ a.stack.length ∧
      ∃ left : List Value, left.length = leaves ∧ b.stack = left ++ a.stack.drop takes := by
  -- none of these instructions jumps or returns
  have hnext : ∀ {x : Step Unit}, execute (Run.callees run) i = andNext x → progress = .next := by
    intro x hx
    rw [hx] at h
    simp only [andNext, bind, StateT.bind, EStateM.bind] at h
    split at h
    · cases h
      rfl
    · cases h
  cases i with
  | pushNull =>
    cases hi
    exact ⟨hnext rfl, (Takes.push _).andNext a m _ _ _ h⟩
  | pushInt _ =>
    cases hi
    exact ⟨hnext rfl, (Takes.push _).andNext a m _ _ _ h⟩
  | load _ slot =>
    cases hi
    exact ⟨hnext rfl, (Takes.bind (Takes.load slot) fun v => .push v).andNext a m _ _ _ h⟩
  | stack op =>
    cases op with
    | dup =>
      cases hi
      exact ⟨hnext rfl, Takes.dup.andNext a m _ _ _ h⟩
    | _ => cases hi
  | newArray element =>
    cases hi
    exact ⟨hnext rfl, (Takes.bind .popInt fun _ => .bind (.lift _) fun _ => .push _).andNext
      a m _ _ _ h⟩
  | newRefArray element =>
    cases hi
    exact ⟨hnext rfl, (Takes.bind .popInt fun _ => .bind (.lift _) fun _ => .push _).andNext
      a m _ _ _ h⟩
  | arrayStore element =>
    cases hi
    exact ⟨hnext rfl, (Takes.bind .pop fun _ => .bind .popInt fun _ => .bind .popRef fun _ =>
      .lift _).andNext a m _ _ _ h⟩
  | invoke kind ref =>
    cases kind with
    | static =>
      rw [Instruction.moves?_static] at hi
      split at hi
      · rename_i hmakes
        cases hi
        exact takes_makes hmakes h
      · cases hi
    | _ => cases hi
  | _ => cases hi

end Step

/-- How many values there are after a block of code, which may take no more than the first `h`. -/
def heightAfter (N : List (MethodRef × Native)) (h : Nat) (is : List Instruction) : Option Nat :=
  is.foldlM (fun h i => do
    let (takes, leaves) ← i.moves? N
    if takes ≤ h then some (h - takes + leaves) else none) h

theorem heightAfter_append (h : Nat) (is js : List Instruction) :
    heightAfter N h (is ++ js) = (heightAfter N h is).bind fun h => heightAfter N h js :=
  List.foldlM_append

theorem heightAfter_cons {h height : Nat} {i : Instruction} {rest : List Instruction}
    (hheight : heightAfter N h (i :: rest) = some height) :
    ∃ takes leaves, i.moves? N = some (takes, leaves) ∧ takes ≤ h ∧
      heightAfter N (h - takes + leaves) rest = some height := by
  simp only [heightAfter, List.foldlM_cons] at hheight
  obtain ⟨h', hstep, hrest⟩ := Option.bind_eq_some_iff.mp hheight
  obtain ⟨⟨takes, leaves⟩, hmoves, hstep⟩ := Option.bind_eq_some_iff.mp hstep
  simp only [Option.ite_none_right_eq_some] at hstep
  obtain ⟨hle, hstep⟩ := hstep
  cases hstep
  exact ⟨takes, leaves, hmoves, hle, hrest⟩

theorem heightAfter_singleton {h takes leaves : Nat} {i : Instruction}
    (hi : i.moves? N = some (takes, leaves)) (hle : takes ≤ h) :
    heightAfter N h [i] = some (h - takes + leaves) := by
  simp only [heightAfter, List.foldlM_cons, List.foldlM_nil, hi, Option.bind_eq_bind,
    Option.bind_some, if_pos hle]
  rfl

/-! ## Disciplined code -/

namespace FrameKey

/-- Pushes the key. -/
def pushes (k : FrameKey) : List Instruction :=
  [.pushConstant (.string k.owner), .pushInt k.id, .pushInt k.version, .pushInt k.point]

/-- The values of the key, in the order in which they are pushed; `r` is the string. -/
def values (k : FrameKey) (r : Ref) : List Value :=
  [.ref r, .int k.id, .int k.version, .int k.point]

end FrameKey

/-- The call that makes a method state. -/
def makeState : Instruction := .invoke .static Interface.MethodState.create

/-- Code that makes a method state: pushes its key, then three values more, and makes the call. -/
def makesState (k : FrameKey) (between : List Instruction) : List Instruction :=
  k.pushes ++ (between ++ [makeState])

/-- Every method state is made with a key that is admitted. -/
def Disciplined (N : List (MethodRef × Native)) (K : FrameKey → Prop) (is : List Instruction) :
    Prop :=
  ∀ before kind after, is = before ++ .invoke kind Interface.MethodState.create :: after →
    kind = .static ∧ ∃ front key between, before = front ++ (key.pushes ++ between) ∧ K key ∧
      heightAfter N 0 between = some 3

namespace Disciplined

variable {is js : List Instruction}

/-- Code that makes no method state. -/
theorem of_none (h : ∀ kind, .invoke kind Interface.MethodState.create ∉ is) :
    Disciplined N K is := by
  intro before kind after his
  refine absurd ?_ (h kind)
  rw [his]
  exact List.mem_append_right _ (List.mem_cons_self ..)

theorem append (his : Disciplined N K is) (hjs : Disciplined N K js) :
    Disciplined N K (is ++ js) := by
  intro before kind after h
  rcases List.append_eq_append_iff.mp h with ⟨mid, rfl, hmid⟩ | ⟨mid, rfl, hmid⟩
  · -- the call is in the second part
    obtain ⟨hkind, front, key, between, rfl, hkey, hheight⟩ := hjs mid kind after hmid
    exact ⟨hkind, is ++ front, key, between, (List.append_assoc ..).symm, hkey, hheight⟩
  · cases mid with
    | nil =>
      obtain ⟨hkind, front, key, between, hfront, hkey, hheight⟩ := hjs [] kind after hmid.symm
      exact ⟨hkind, before ++ front, key, between, by
        rw [List.append_assoc, ← hfront, List.append_nil], hkey, hheight⟩
    | cons i mid =>
      injection hmid with hi hmid
      subst hi
      exact his before kind mid rfl

theorem flatMap {xs : List α} {f : α → List Instruction} (h : ∀ x ∈ xs, Disciplined N K (f x)) :
    Disciplined N K (xs.flatMap f) := by
  induction xs with
  | nil => exact of_none fun _ => List.not_mem_nil
  | cons x xs ih =>
    rw [List.flatMap_cons]
    exact append (h x (List.mem_cons_self ..)) (ih fun y hy => h y (List.mem_cons_of_mem _ hy))

/-- Code that pushes an admitted key and makes a state with it. -/
theorem makes {key : FrameKey} {between : List Instruction} (hkey : K key)
    (hheight : heightAfter N 0 between = some 3)
    (hbetween : ∀ kind, .invoke kind Interface.MethodState.create ∉ between) :
    Disciplined N K (makesState key between) := by
  intro before kind after h
  have hsplit : makesState key between = (key.pushes ++ between) ++ [makeState] := by
    rw [makesState, List.append_assoc]
  rw [hsplit] at h
  rcases List.append_eq_append_iff.mp h with ⟨mid, rfl, hmid⟩ | ⟨mid, hbefore, hmid⟩
  · cases mid with
    | nil =>
      cases hmid
      exact ⟨rfl, [], key, between, by rw [List.append_nil]; rfl, hkey, hheight⟩
    | cons i mid =>
      injection hmid with _ hmid
      exact absurd hmid.symm (by simp)
  · cases mid with
    | nil =>
      rw [List.append_nil] at hbefore
      cases hmid
      exact ⟨rfl, [], key, between, hbefore.symm, hkey, hheight⟩
    | cons i mid =>
      -- before the end there is no such call
      injection hmid with hi _
      subst hi
      have hmem : Instruction.invoke kind Interface.MethodState.create ∈ key.pushes ++ between := by
        rw [hbefore]
        exact List.mem_append_right _ (List.mem_cons_self ..)
      rcases List.mem_append.mp hmem with hmem | hmem
      · simp [FrameKey.pushes] at hmem
      · exact absurd hmem (hbetween kind)

end Disciplined

/-! ## Activations on the way to a method state -/

/-- After `done` instructions of the code for a method state the key is on the stack, as far as it
was pushed, and on top of it as many values as there should be. -/
def Pushed (N : List (MethodRef × Native)) (key : FrameKey) (between : List Instruction)
    (done : Nat) (stack : List Value) (m : Machine) : Prop :=
  ∃ r top rest, m.object? r = some (.string key.owner) ∧
    stack = top ++ (((key.values r).take done).reverse ++ rest) ∧
    heightAfter N 0 (between.take (done - 4)) = some top.length

section

variable {D : Discipline} {run : MethodRunner} {key : FrameKey} {between : List Instruction}
  {done : Nat} {a b : Activation} {m m' : Machine} {i : Instruction} {progress : Progress}

/-- The first instruction pushes the string. -/
theorem Pushed.first (hm : m.Sound D)
    (h : Step.execute (Run.callees run) (.pushConstant (.string key.owner)) a m =
      .ok (progress, b) m') : Pushed N key between 1 b.stack m' := by
  have hrun : Step.execute (Run.callees run) (.pushConstant (.string key.owner)) a m =
      .ok (.next, { a with stack := .ref (m.intern key.owner).1 :: a.stack })
        (m.intern key.owner).2 := rfl
  rw [hrun] at h
  cases h
  have hsound := hm.intern key.owner
  refine ⟨(m.intern key.owner).1, [], a.stack, ?_, rfl, rfl⟩
  rw [hsound.interned]
  cases hs : m.strings.lookup key.owner with
  | some r =>
    rw [Machine.intern_of_some hs]
    exact hs
  | none =>
    rw [Machine.intern_of_none hs]
    simp [List.lookup]

/-- An instruction after that pushes the next part of the key, or moves values above it. -/
theorem Pushed.next (h : Pushed m.natives key between done a.stack m) (hdone : 0 < done)
    (hheight : (heightAfter m.natives 0 between).isSome)
    (hi : (key.pushes ++ between)[done]? = some i) (hlater : m.Precedes m')
    (hexec : Step.execute (Run.callees run) i a m = .ok (progress, b) m') :
    Pushed m.natives key between (done + 1) b.stack m' := by
  obtain ⟨r, top, rest, ho, hstack, htop⟩ := h
  obtain ⟨o', ho', hevolves⟩ := hlater.objects r _ ho
  cases hevolves.of_string
  by_cases hlt : done < 4
  · -- the key is still being pushed, so nothing is above it
    have hzero : done - 4 = 0 := by omega
    rw [hzero, List.take_zero] at htop
    cases List.length_eq_zero_iff.mp (Option.some.inj htop).symm
    match done, hdone, hlt with
    | 1, _, _ =>
      cases hi
      cases hexec
      exact ⟨r, [], rest, ho', congrArg (List.cons _) hstack, rfl⟩
    | 2, _, _ =>
      cases hi
      cases hexec
      exact ⟨r, [], rest, ho', congrArg (List.cons _) hstack, rfl⟩
    | 3, _, _ =>
      cases hi
      cases hexec
      exact ⟨r, [], rest, ho', congrArg (List.cons _) hstack, rfl⟩
  · obtain ⟨n, rfl⟩ : ∃ n, done = n + 4 := ⟨done - 4, by omega⟩
    have hlength : key.pushes.length = 4 := rfl
    rw [List.getElem?_append_right (by rw [hlength]; omega), hlength, Nat.add_sub_cancel] at hi
    obtain ⟨hn, hget⟩ := List.getElem?_eq_some_iff.mp hi
    have hsplit : between = between.take n ++ (i :: between.drop (n + 1)) := by
      rw [← hget, ← List.drop_eq_getElem_cons hn, List.take_append_drop]
    obtain ⟨height, hheight⟩ := Option.isSome_iff_exists.mp hheight
    rw [Nat.add_sub_cancel] at htop
    rw [hsplit, heightAfter_append, htop] at hheight
    obtain ⟨takes, leaves, hmoves, hle, -⟩ := heightAfter_cons hheight
    obtain ⟨-, -, left, hleft, hb⟩ := Step.execute_moves hmoves hexec
    refine ⟨r, left ++ top.drop takes, rest, ho', ?_, ?_⟩
    · rw [hb, hstack, List.drop_append_of_le_length hle, List.append_assoc]
      have htake : ∀ k, (key.values r).take (k + 4) = key.values r := fun k =>
        List.take_of_length_le (Nat.le_add_left 4 k)
      rw [htake, Nat.add_right_comm, htake]
    · have hsucc : n + 4 + 1 - 4 = n + 1 := by omega
      rw [hsucc, List.take_add_one, hi, Option.toList_some, heightAfter_append, htop,
        Option.bind_some, heightAfter_singleton hmoves hle]
      simp only [List.length_append, List.length_drop, hleft, Option.some.injEq]
      omega

end

namespace Body

variable {D : Discipline} {run : MethodRunner} {c : Code} {body : Body} {a b : Activation}
  {m m' : Machine}

/-- What stands at an index inside of a block. -/
theorem Has.getElem?_add {start k : Nat} {is : List Instruction} (h : body.Has start is)
    (hk : k < is.length) : body.instructions[start + k]? = is[k]? := by
  obtain ⟨tail, htail⟩ := h
  have hget := congrArg (·[k]?) htail
  simp only [List.getElem?_append_left hk, List.getElem?_drop, Array.getElem?_toList] at hget
  exact hget.symm

/-- Wherever an activation is inside of code for a method state, the key was pushed. -/
def Tracked (N : List (MethodRef × Native)) (body : Body) (a : Activation) (m : Machine) : Prop :=
  ∀ start key between done, body.Has start (makesState key between) →
    (heightAfter N 0 between).isSome → a.index = start + done → 0 < done →
    done ≤ 4 + between.length → Pushed N key between done a.stack m

/-- No label stands in code for a method state. -/
theorem not_label {start done : Nat} {key : FrameKey} {between : List Instruction}
    (hat : body.Has start (makesState key between)) (hheight : (heightAfter N 0 between).isSome)
    (hdone : done ≤ 4 + between.length) (l : Label) :
    body.instructions[start + done]? ≠ some (.label l) := by
  have hlength : (makesState key between).length = 4 + (between.length + 1) := by
    simp [makesState, FrameKey.pushes]
    omega
  rw [hat.getElem?_add (by rw [hlength]; omega)]
  intro hlabel
  have hmem := List.mem_of_getElem? hlabel
  rcases List.mem_append.mp hmem with hmem | hmem
  · simp [FrameKey.pushes] at hmem
  · rcases List.mem_append.mp hmem with hmem | hmem
    · obtain ⟨before, after, rfl⟩ := List.append_of_mem hmem
      obtain ⟨height, hheight⟩ := Option.isSome_iff_exists.mp hheight
      rw [heightAfter_append] at hheight
      obtain ⟨h, -, hheight⟩ := Option.bind_eq_some_iff.mp hheight
      obtain ⟨_, _, hmoves, -, -⟩ := heightAfter_cons hheight
      cases hmoves
    · cases List.mem_singleton.mp hmem

/-- Where a step goes: to the next instruction, or to a label. -/
theorem advance_next_or_label (hbody : ofCode c = .ok body) (hrun : run.Steady D m.natives)
    (h : body.advance (Run.callees run) a m = .ok (.continue b) m') :
    (∃ i b₀, body.instructions[a.index]? = some i ∧
      Step.execute (Run.callees run) i a m = .ok (.next, b₀) m' ∧ m.Precedes m' ∧
      b = { b₀ with index := a.index + 1 }) ∨
    ∃ l, body.instructions[b.index]? = some (.label l) := by
  have hinstructions := (ofCode_inv hbody).1
  cases hi : body.instructions[a.index]? with
  | none =>
    simp only [Body.advance, hi] at h
    cases h
  | some i =>
    have hsteady := Step.execute_steady (P := False) (Run.callees_steady hrun) i
      (fun hp => hp.elim) a m rfl
    rw [advance_eq hi] at h
    cases hx : Step.execute (Run.callees run) i a m with
    | ok result m₁ =>
      obtain ⟨progress, b₀⟩ := result
      rw [Step.SteadyAt, hx] at hsteady
      obtain ⟨hsame, -, hlater, -⟩ := hsteady
      rw [hx] at h
      cases progress with
      | next =>
        cases h
        exact .inl ⟨i, b₀, rfl, hx, hlater.toPrecedes, by rw [hsame]⟩
      | jump l =>
        simp only [afterExecute] at h
        split at h
        · rename_i target htarget
          cases h
          exact .inr ⟨l, hinstructions ▸ (find_iff hbody).mp htarget⟩
        · cases h
      | done v => cases h
    | error e m₁ =>
      rw [hx] at h
      cases e with
      | failure e => cases h
      | exception r =>
        simp only [afterExecute] at h
        split at h
        · rename_i hhandle
          cases h
          obtain ⟨x, entry, hedge, rfl⟩ := handle_edge hbody hhandle
          cases hedge with
          | handler _ _ _ hentry _ => exact .inr ⟨x.entry, hinstructions ▸ hentry⟩
        · cases h

/-- **A step keeps track.** -/
theorem Tracked.advance (hbody : ofCode c = .ok body) (hrun : run.Steady D m.natives)
    (hm : m.Sound D) (h : Tracked m.natives body a m)
    (hadvance : body.advance (Run.callees run) a m = .ok (.continue b) m') :
    Tracked m.natives body b m' := by
  intro start key between done hat hheight hindex hpos hle
  rcases advance_next_or_label hbody hrun hadvance with
    ⟨i, b₀, hi, hx, hlater, rfl⟩ | ⟨l, hlabel⟩
  · obtain ⟨done, rfl⟩ : ∃ k, done = k + 1 := ⟨done - 1, by omega⟩
    have hbefore : a.index = start + done := Nat.succ.inj hindex
    have hget : (key.pushes ++ between)[done]? = some i := by
      have hlength : (makesState key between).length = 4 + (between.length + 1) := by
        simp [makesState, FrameKey.pushes]
        omega
      have hat' := hat.getElem?_add (k := done) (by rw [hlength]; omega)
      rw [← hbefore, hi, makesState, ← List.append_assoc, List.getElem?_append_left] at hat'
      · exact hat'.symm
      · rw [List.length_append]
        show done < 4 + between.length
        omega
    cases done with
    | zero =>
      cases hget
      exact Pushed.first (b := b₀) hm hx
    | succ done =>
      have hpushed := h start key between (done + 1) hat hheight hbefore (by omega) (by omega)
      exact hpushed.next (b := b₀) (by omega) hheight hget hlater hx
  · rw [hindex] at hlabel
    exact absurd hlabel (not_label hat hheight hle l)

end Body

/-! ## The discipline -/

/-- A call is steady if its callee is, and if it makes a method state with a good key. -/
theorem Step.invoke_steadyAt {D : Discipline} {P : Prop} {callees : Callees} {a : Activation}
    {m : Machine} (hcallees : CalleesSteady D m.natives callees) (kind : CallKind) (ref : MethodRef)
    (hgood : P → ref = Interface.MethodState.create → Run.MakesGood D.key
      (a.stack.take (ref.descriptor.parameters.length + if kind = .static then 0 else 1)).reverse m) :
    SteadyAt D P Returns (execute callees (.invoke kind ref)) a m := by
  generalize hcount : (ref.descriptor.parameters.length + if kind = .static then 0 else 1) = count
    at hgood
  by_cases henough : count ≤ a.stack.length
  · have hcall := hcallees.call (P ∧ a.Sound) kind ref (a.stack.take count).reverse m rfl
      (fun hp v hv => hp.2 v (List.mem_of_mem_take (List.mem_reverse.mp hv))) fun hp => hgood hp.1
    rw [SteadyAt, execute_invoke_eq hcount.symm henough]
    rw [Run.Leads] at hcall
    split at hcall
    · rename_i result m' hresult
      rw [hresult]
      refine ⟨rfl, rfl, hcall.1, fun hp ha hm => ?_⟩
      obtain ⟨hm', hdefinite⟩ := hcall.2 ⟨hp, ha⟩ hm
      refine ⟨fun v hv => ?_, hm', fun _ hv => by cases hv⟩
      rcases List.mem_append.mp hv with hv | hv
      · exact hdefinite v (Option.mem_toList.mp hv)
      · exact ha v (List.mem_of_mem_drop hv)
    · rename_i e m' hresult
      rw [hresult]
      exact ⟨hcall.1, fun hp ha hm => hcall.2 ⟨hp, ha⟩ hm⟩
  · rw [SteadyAt, execute_invoke_missing hcount.symm (Nat.not_le.mp henough)]
    exact ⟨.refl m, fun _ _ hm => hm⟩

/-- All keys of method states are admitted, and code makes no others. -/
def Discipline.keyed (N : List (MethodRef × Native)) (K : FrameKey → Prop) : Discipline where
  key := K
  code _ method := ∀ c, method.code = some c → Disciplined N K c.instructions.toList

/-- What is on the stack when disciplined code makes a method state. -/
theorem Body.Tracked.makesGood {c : Code} {body : Body} {a : Activation} {m : Machine}
    {kind : CallKind} (hbody : ofCode c = .ok body)
    (hcode : Disciplined m.natives K c.instructions.toList) (h : Tracked m.natives body a m)
    (hi : body.instructions[a.index]? = some (.invoke kind Interface.MethodState.create)) :
    kind = .static ∧ Run.MakesGood K (a.stack.take 7).reverse m := by
  rw [(ofCode_inv hbody).1] at hi
  obtain ⟨hlt, hget⟩ := Array.getElem?_eq_some_iff.mp hi
  have hlt' : a.index < c.instructions.toList.length := by simpa using hlt
  have hsplit : c.instructions.toList = c.instructions.toList.take a.index ++
      .invoke kind Interface.MethodState.create :: c.instructions.toList.drop (a.index + 1) := by
    rw [← hget, ← Array.getElem_toList hlt', ← List.drop_eq_getElem_cons hlt',
      List.take_append_drop]
  obtain ⟨rfl, front, key, between, hbefore, hkey, hheight⟩ := hcode _ _ _ hsplit
  have hindex : a.index = front.length + (4 + between.length) := by
    have hlength := congrArg List.length hbefore
    rw [List.length_take, Nat.min_eq_left hlt'.le, List.length_append, List.length_append] at hlength
    exact hlength
  have hat : body.Has front.length (makesState key between) := by
    refine ⟨c.instructions.toList.drop (a.index + 1), ?_⟩
    rw [(ofCode_inv hbody).1]
    conv => rhs; rw [hsplit, hbefore]
    rw [List.append_assoc, List.drop_left, makesState]
    simp only [List.append_assoc]
    rfl
  obtain ⟨r, top, rest, ho, hstack, htop⟩ := h front.length key between (4 + between.length) hat
    (by rw [hheight]; rfl) hindex (by omega) (Nat.le_refl _)
  have htake : 4 + between.length - 4 = between.length := by omega
  rw [htake, List.take_length, hheight] at htop
  have hkeys : (key.values r).take (4 + between.length) = key.values r :=
    List.take_of_length_le (Nat.le_add_right 4 _)
  obtain ⟨x, y, z, rfl⟩ := List.length_eq_three.mp (Option.some.inj htop).symm
  have harguments : (a.stack.take 7).reverse = key.values r ++ [z, y, x] := by
    rw [hstack, hkeys]
    rfl
  refine ⟨rfl, ?_⟩
  rw [harguments]
  intro r' owner id version point h0 ho' h1 h2 h3
  cases h0
  cases h1
  cases h2
  cases h3
  rw [ho] at ho'
  cases ho'
  exact hkey

/-- **Every key is admitted.** Code that was loaded under this discipline keeps it. -/
theorem Discipline.keyed_kept (N : List (MethodRef × Native)) (K : FrameKey → Prop) :
    (Discipline.keyed N K).Kept N := by
  rintro owner method c body run hc hbody hrun limit steps a m rfl hindex hstack
  -- the code is disciplined, and the activation is tracked in it
  refine (Body.runFor_leads (N := m.natives)
    (fun a m' => Disciplined m.natives K c.instructions.toList ∧ body.Tracked m.natives a m')
    (fun a m₁ hm₁ => ?_) (fun a m₁ b m₂ hm₁ hI _ hsound hadvance => ⟨hI.1, ?_⟩) limit steps a
    rfl).mono (fun hcode => ⟨⟨hcode c hc, ?_⟩, ?_⟩) fun _ _ h => h
  · rw [← hm₁] at hrun ⊢
    cases hi : body.instructions[a.index]? with
    | none => exact Body.advance_ranOff hi
    | some i =>
      refine Body.advance_leads hi ?_
      by_cases hcreate : ∃ kind, i = .invoke kind Interface.MethodState.create
      · obtain ⟨kind, rfl⟩ := hcreate
        refine Step.invoke_steadyAt (Run.callees_steady hrun) kind _ fun hI _ => ?_
        obtain ⟨rfl, hgood⟩ := hI.2.makesGood hbody hI.1 hi
        exact hgood
      · exact Step.execute_steady (Run.callees_steady hrun) i
          (fun _ => .inl fun kind he => hcreate ⟨kind, he⟩) a m₁ rfl
  · rw [← hm₁] at hrun hI hsound ⊢
    exact hI.2.advance hbody hrun hsound hadvance
  · intro start key between done _ _ hat hpos _
    omega
  · rw [Activation.Sound, hstack]
    exact List.forall_mem_nil _

end Resumption
