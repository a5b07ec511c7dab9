import Mathlib
import Resumption.Frame.Transfer

/-!
# Well-formed frames

A frame is well-formed if it has one entry for each local slot, a wide local is followed by an
unusable one, and nothing on the stack is unusable. Frames start that way, and both instructions
(`step_wellFormed`) and merging (`merge_wellFormed`) keep it up.
-/

namespace Resumption

/-- A computation in two parts that succeeds. -/
theorem Except.bind_ok {ε α β : Type} {x : Except ε α} {f : α → Except ε β} {b : β} :
    (x >>= f) = .ok b ↔ ∃ a, x = .ok a ∧ f a = .ok b := by
  cases x with
  | ok a => exact ⟨fun h => ⟨a, rfl, h⟩, fun ⟨_, ha, h⟩ => by cases ha; exact h⟩
  | error e => exact ⟨nofun, fun ⟨_, ha, _⟩ => nomatch ha⟩

namespace Frame

/-- A wide local is followed by an unusable one. -/
def HalvesMatch (locals : List SlotType) : Prop :=
  ∀ (i : Nat) (t : SlotType), locals[i]? = some t → t.width = 2 → locals[i + 1]? = some SlotType.top

/-- One entry for each slot, no half of a wide local alone, nothing unusable on the stack. -/
structure WellFormed (size : Nat) (f : Frame) : Prop where
  /-- there is a word for every variable -/
  length : f.locals.length = size
  /-- the second word of a wide value is behind the first -/
  halves : HalvesMatch f.locals
  /-- no operand is unknown -/
  stack : ∀ t ∈ f.stack, t ≠ .top

variable {size : Nat} {f f' : Frame}

/-! ## The stack -/

/-- What is popped was on top and is as asked. -/
theorem popWhere_eq {p : SlotType → Bool} {stack rest : List SlotType} {t : SlotType}
    (h : popWhere p stack = .ok (t, rest)) : stack = t :: rest ∧ p t = true := by
  cases stack with
  | nil => cases h
  | cons u stack =>
    simp only [popWhere, pop, bind, Except.bind] at h
    split at h
    · cases h
      exact ⟨rfl, ‹_›⟩
    · cases h

/-- What is popped exactly was on top in that order. -/
theorem popExactly_eq {wanted stack rest : List SlotType} (h : popExactly wanted stack = .ok rest) :
    stack = wanted ++ rest := by
  induction wanted generalizing stack with
  | nil =>
    cases h
    rfl
  | cons t wanted ih =>
    obtain ⟨⟨u, stack'⟩, hpop, hrest⟩ := Except.bind_ok.mp h
    obtain ⟨rfl, hu⟩ := popWhere_eq hpop
    rw [ih hrest, of_decide_eq_true hu]
    rfl

/-- Arguments leave what lies below. -/
theorem popFitting_suffix {parameters : List FieldType} {stack rest : List SlotType}
    (h : popFitting parameters stack = .ok rest) : rest <:+ stack := by
  induction parameters generalizing stack with
  | nil =>
    cases h
    exact List.suffix_rfl
  | cons t parameters ih =>
    obtain ⟨⟨u, stack'⟩, hpop, hrest⟩ := Except.bind_ok.mp h
    obtain ⟨rfl, -⟩ := popWhere_eq hpop
    exact (ih hrest).trans (List.suffix_cons u stack')

/-- Arguments are as many as there are parameters. -/
theorem popFitting_length {parameters : List FieldType} {stack rest : List SlotType}
    (h : popFitting parameters stack = .ok rest) :
    stack.length = rest.length + parameters.length := by
  induction parameters generalizing stack with
  | nil =>
    cases h
    rfl
  | cons t parameters ih =>
    obtain ⟨⟨u, stack'⟩, hpop, hrest⟩ := Except.bind_ok.mp h
    obtain ⟨rfl, -⟩ := popWhere_eq hpop
    rw [List.length_cons, ih hrest, List.length_cons, Nat.add_assoc]

/-- What is popped as a single word is one word wide. -/
theorem popNarrow_eq {stack rest : List SlotType} {t : SlotType}
    (h : popNarrow stack = .ok (t, rest)) : stack = t :: rest ∧ t.width = 1 := by
  cases stack with
  | nil => cases h
  | cons u stack =>
    simp only [popNarrow, pop, bind, Except.bind] at h
    split at h
    · cases h
      exact ⟨rfl, ‹_›⟩
    · cases h

/-- Popped words were on top. -/
theorem popWords_eq {words : Nat} {stack rest taken : List SlotType}
    (h : popWords words stack = .ok (taken, rest)) : stack = taken ++ rest := by
  match words with
  | 0 =>
    cases h
    rfl
  | 1 =>
    obtain ⟨⟨t, stack'⟩, hpop, h⟩ := Except.bind_ok.mp h
    cases h
    exact (popNarrow_eq hpop).1
  | words + 2 =>
    cases stack with
    | nil => cases h
    | cons t stack =>
      simp only [popWords, pop, bind, Except.bind] at h
      split at h
      · split at h
        · cases h
        · rename_i hpop
          cases h
          rw [(popNarrow_eq hpop).1]
          rfl
      · cases h
        rfl

/-- At most two values are popped at once. -/
theorem popWords_length {words : Nat} {stack rest taken : List SlotType}
    (h : popWords words stack = .ok (taken, rest)) : taken.length ≤ 2 := by
  match words with
  | 0 =>
    cases h
    exact Nat.zero_le _
  | 1 =>
    obtain ⟨⟨t, stack'⟩, -, h⟩ := Except.bind_ok.mp h
    cases h
    exact Nat.le_succ 1
  | words + 2 =>
    cases stack with
    | nil => cases h
    | cons t stack =>
      simp only [popWords, pop, bind, Except.bind] at h
      split at h
      · split at h
        · cases h
        · cases h
          exact Nat.le_refl 2
      · cases h
        exact Nat.le_succ 1

/-- What is popped as an array is null or of an array type. -/
theorem popArray_eq {stack rest : List SlotType} {array : Option RefType}
    (h : popArray stack = .ok (array, rest)) :
    (array = none ∧ stack = .null :: rest) ∨
      ∃ type, array = some type ∧ type.isArray = true ∧ stack = .object type :: rest := by
  cases stack with
  | nil => cases h
  | cons t stack =>
    simp only [popArray, pop, bind, Except.bind] at h
    split at h
    · cases h
      exact .inl ⟨rfl, rfl⟩
    · split at h
      · cases h
        exact .inr ⟨_, rfl, ‹_›, rfl⟩
      · cases h
    · cases h

/-! ## Locals -/

/-- No kind of value is `top`. -/
theorem holdsKind_ne_top {kind : ValueKind} {t : SlotType} (h : holdsKind kind t = true) :
    t ≠ .top := by
  rintro rfl
  cases kind <;> cases h

/-- No field is of type `top`. -/
theorem ofField_ne_top (t : FieldType) : SlotType.ofField t ≠ .top := by
  match t with
  | .base .float | .base .long | .base .double | .base .boolean | .base .byte | .base .char
  | .base .short | .base .int | .ref _ => nofun

/-- Ruining a wide value adds no variables. -/
theorem ruinBefore_length (locals : List SlotType) (slot : Nat) :
    (ruinBefore locals slot).length = locals.length := by
  simp only [ruinBefore]
  split <;> simp

/-- After this no wide local reaches into the slot, and the halves still match. -/
theorem ruinBefore_halves {locals : List SlotType} (h : HalvesMatch locals) (slot : Nat) :
    ∀ i t, (ruinBefore locals slot)[i]? = some t → t.width = 2 →
      i + 1 ≠ slot ∧ (ruinBefore locals slot)[i + 1]? = some .top := by
  intro i t hi hwide
  simp only [ruinBefore] at hi ⊢
  split at hi
  · rename_i hruin
    rw [if_pos hruin]
    rw [List.getElem?_set] at hi
    split at hi
    · split at hi
      · cases hi
        cases hwide
      · cases hi
    · have hnext := h i t hi hwide
      refine ⟨by omega, ?_⟩
      rw [List.getElem?_set]
      split
      · rw [if_pos (by have := (List.getElem?_eq_some_iff.mp hnext).1; omega)]
      · exact hnext
  · rename_i hkeep
    rw [if_neg hkeep]
    refine ⟨?_, h i t hi hwide⟩
    rintro rfl
    refine hkeep ?_
    simp [hi, hwide]

/-- A store keeps the halves of wide values together. -/
theorem storeLocal_halves {locals locals' : List SlotType} {slot : Nat} {t : SlotType}
    (h : HalvesMatch locals) (hok : storeLocal locals slot t = .ok locals') :
    locals'.length = locals.length ∧ HalvesMatch locals' := by
  simp only [storeLocal] at hok
  split at hok
  · cases hok
  rename_i hfits
  cases hok
  have hlength := ruinBefore_length locals slot
  have hruined := ruinBefore_halves h slot
  generalize ruinBefore locals slot = ruined at hlength hruined
  -- `base` is what the value itself is put into
  have hbase : ∀ base : List SlotType, base.length = locals.length →
      (t.width = 2 → base[slot + 1]? = some .top) →
      (∀ i u, base[i]? = some u → u.width = 2 → i ≠ slot →
        i + 1 ≠ slot ∧ base[i + 1]? = some .top) →
      (base.set slot t).length = locals.length ∧ HalvesMatch (base.set slot t) := by
    intro base hsize hsecond hothers
    refine ⟨by rw [List.length_set, hsize], fun i u hi hu => ?_⟩
    rw [List.getElem?_set] at hi
    split at hi
    · rename_i heq
      subst heq
      split at hi
      · cases hi
        rw [List.getElem?_set_ne (by omega)]
        exact hsecond hu
      · cases hi
    · rename_i hne
      obtain ⟨hbelow, htop⟩ := hothers i u hi hu (Ne.symm hne)
      rw [List.getElem?_set_ne (Ne.symm hbelow)]
      exact htop
  by_cases hwide : t.width = 2
  · simp only [hwide, if_true]
    refine hbase _ (by simp [hlength]) (fun _ => List.getElem?_set_self (by omega)) ?_
    intro i u hi hu hne
    rw [List.getElem?_set] at hi
    split at hi
    · split at hi
      · cases hi
        cases hu
      · cases hi
    · obtain ⟨hbelow, htop⟩ := hruined i u hi hu
      refine ⟨hbelow, ?_⟩
      rw [List.getElem?_set_ne (by omega)]
      exact htop
  · simp only [hwide, if_false]
    exact hbase _ hlength (fun h2 => absurd h2 hwide) fun i u hi hu _ => hruined i u hi hu

/-! ## Instructions -/

/-- A frame stays well formed with another stack without `top`. -/
theorem WellFormed.withStack (hf : f.WellFormed size) {stack : List SlotType}
    (hstack : ∀ t ∈ stack, t ≠ .top) : WellFormed size { f with stack } :=
  ⟨hf.length, hf.halves, hstack⟩

/-- What lies below on the stack has no `top` either. -/
theorem WellFormed.suffix (hf : f.WellFormed size) {stack : List SlotType}
    (h : stack <:+ f.stack) : ∀ t ∈ stack, t ≠ .top := fun t ht => hf.stack t (h.subset ht)

/-- Objects take the place of uninitialized ones. -/
theorem WellFormed.replaceAll (hf : f.WellFormed size) {old new : SlotType}
    (hold : old.isUninitialized = true) (hnew : new.width = 1 ∧ new ≠ .top) :
    WellFormed size (f.replaceAll old new) := by
  have hwidth : old.width = 1 ∧ old ≠ .top := by
    cases old <;> first | cases hold; done | exact ⟨rfl, nofun⟩
  refine ⟨by rw [Frame.replaceAll, List.length_map]; exact hf.length, fun i t hi ht => ?_, ?_⟩
  · simp only [Frame.replaceAll, List.getElem?_map, Option.map_eq_some_iff] at hi ⊢
    obtain ⟨u, hu, rfl⟩ := hi
    split at ht
    · omega
    · exact ⟨.top, hf.halves i u hu ht, if_neg (Ne.symm hwidth.2)⟩
  · simp only [Frame.replaceAll, List.mem_map]
    rintro _ ⟨u, hu, rfl⟩
    split
    · exact hnew.2
    · exact hf.stack u hu

/-- Instructions with fixed effects push no `top`. -/
theorem fixedEffect_ne_top {i : Instruction} {taken put : List SlotType}
    (h : i.fixedEffect? = some (taken, put)) : ∀ t ∈ put, t ≠ .top := by
  cases i <;> cases h <;> intro t ht
  case pushConstant c =>
    obtain rfl := List.mem_singleton.mp ht
    cases c <;> nofun
  case arith kind | neg kind =>
    obtain rfl := List.mem_singleton.mp ht
    cases kind <;> nofun
  case shift kind | bitwise kind =>
    obtain rfl := List.mem_singleton.mp ht
    cases kind <;> nofun
  case convert c =>
    obtain rfl := List.mem_singleton.mp ht
    cases c <;> nofun
  case getStatic field =>
    obtain rfl := List.mem_singleton.mp ht
    exact ofField_ne_top field.type
  all_goals first
    | cases ht; done
    | obtain rfl := List.mem_singleton.mp ht; exact nofun

/-- Results are never `top`. -/
theorem pushResult_ne_top {result : Option FieldType} {stack : List SlotType}
    (h : ∀ t ∈ stack, t ≠ .top) : ∀ t ∈ pushResult result stack, t ≠ .top := by
  intro t ht
  rcases List.mem_append.mp ht with ht | ht
  · obtain ⟨u, -, rfl⟩ := Option.map_eq_some_iff.mp (Option.mem_toList.mp ht)
    exact ofField_ne_top u
  · exact h t ht

/-- Arguments and receiver of a call are on the stack. -/
theorem invoke_arguments {context : MethodContext} {kind : CallKind} {m : MethodRef}
    (h : f.invoke context kind m = .ok f') :
    m.descriptor.parameters.length + (if kind = .static then 0 else 1) ≤ f.stack.length := by
  obtain ⟨stack, hpop, h⟩ := Except.bind_ok.mp h
  have hlength := popFitting_length hpop
  rw [List.length_reverse] at hlength
  by_cases hstatic : kind = .static
  · rw [if_pos hstatic]
    omega
  · rw [if_neg hstatic]
    cases stack with
    | nil =>
      rw [if_neg hstatic] at h
      split at h <;> cases h
    | cons t stack =>
      rw [List.length_cons] at hlength
      omega

/-- The receiver of a call without arguments is on top. -/
theorem invoke_receiver {context : MethodContext} {kind : CallKind} {m : MethodRef}
    (h : f.invoke context kind m = .ok f') (hnone : m.descriptor.parameters = [])
    (hinit : m.name ≠ .init) (hstatic : kind ≠ .static) :
    ∃ t rest, f.stack = t :: rest ∧ t.fits (.ofClass .object) = true := by
  obtain ⟨stack, hpop, h⟩ := Except.bind_ok.mp h
  rw [hnone] at hpop
  cases hpop
  rw [if_neg (by simp [hinit]), if_neg hstatic] at h
  obtain ⟨⟨t, rest⟩, hreceiver, -⟩ := Except.bind_ok.mp h
  exact ⟨t, rest, popWhere_eq hreceiver⟩

/-- **What a call leaves.** A constructor initializes its receiver wherever that occurs; any other call
puts its result on what is left of the stack. -/
theorem invoke_inv {context : MethodContext} {kind : CallKind} {m : MethodRef}
    (h : f.invoke context kind m = .ok f') : ∃ rest, rest <:+ f.stack ∧
      (f' = { f with stack := pushResult m.descriptor.result rest } ∨
        ∃ old new, old ∈ f.stack ∧ f' = { f with stack := rest }.replaceAll old new ∧
          (old = .uninitializedThis ∧ new = .ofClass context.owner ∨
            ∃ name index, old = .uninitialized name index ∧ new = .ofClass name)) := by
  obtain ⟨stack, hpop, h⟩ := Except.bind_ok.mp h
  have hsuffix := popFitting_suffix hpop
  split at h
  · cases stack with
    | nil => cases h
    | cons t stack =>
      have hrest : stack <:+ f.stack := (List.suffix_cons t stack).trans hsuffix
      have hmem : t ∈ f.stack := hsuffix.subset (List.mem_cons_self ..)
      simp only [pop, bind, Except.bind] at h
      cases t with
      | uninitializedThis =>
        simp only [pure, Except.pure] at h
        split at h
        · cases h
        · cases h
          exact ⟨stack, hrest, .inr ⟨_, _, hmem, rfl, .inl ⟨rfl, rfl⟩⟩⟩
      | uninitialized name index =>
        simp only [pure, Except.pure] at h
        split at h
        · cases h
        · cases h
          exact ⟨stack, hrest, .inr ⟨_, _, hmem, rfl, .inr ⟨name, index, rfl, rfl⟩⟩⟩
      | _ => cases h
  · split at h
    · cases h
      exact ⟨stack, hsuffix, .inl rfl⟩
    · obtain ⟨⟨t, stack'⟩, hreceiver, h⟩ := Except.bind_ok.mp h
      cases h
      obtain ⟨rfl, -⟩ := popWhere_eq hreceiver
      exact ⟨stack', (List.suffix_cons t stack').trans hsuffix, .inl rfl⟩

/-- A call keeps the frame well formed. -/
theorem invoke_wellFormed {context : MethodContext} {kind : CallKind} {m : MethodRef}
    (hf : f.WellFormed size) (h : f.invoke context kind m = .ok f') : f'.WellFormed size := by
  obtain ⟨rest, hrest, rfl | ⟨old, new, -, rfl, hinitializes⟩⟩ := invoke_inv h
  · exact hf.withStack (pushResult_ne_top (hf.suffix hrest))
  · have hleft : WellFormed size { f with stack := rest } := hf.withStack (hf.suffix hrest)
    rcases hinitializes with ⟨rfl, rfl⟩ | ⟨name, index, rfl, rfl⟩
    · exact hleft.replaceAll rfl ⟨rfl, nofun⟩
    · exact hleft.replaceAll rfl ⟨rfl, nofun⟩

/-- The value that is returned was on top. -/
theorem returnValue_inv {context : MethodContext} {kind : ValueKind}
    (h : f.returnValue context kind = .ok f') :
    ∃ t rest, f.stack = t :: rest ∧ f' = { f with stack := rest } := by
  simp only [returnValue] at h
  split at h
  · obtain ⟨stack, hpop, h⟩ := Except.bind_ok.mp h
    split at h
    · cases h
      exact ⟨_, stack, popExactly_eq hpop, rfl⟩
    · cases h
  · cases hstack : f.stack with
    | nil =>
      rw [hstack] at h
      cases h
    | cons t rest =>
      simp only [hstack, pop, bind, Except.bind] at h
      split at h
      · split at h
        · cases h
          exact ⟨t, rest, rfl, rfl⟩
        · cases h
      · cases h

/-- A local that can be loaded is there. -/
theorem local?_ok {slot : Nat} {t : SlotType} : f.local? slot = .ok t ↔ f.locals[slot]? = some t := by
  rw [local?]
  cases f.locals[slot]? with
  | none => exact ⟨nofun, nofun⟩
  | some u => simp

/-- A load keeps the frame well formed. -/
theorem load_wellFormed {kind : ValueKind} {slot : Nat} (hf : f.WellFormed size)
    (h : f.load kind slot = .ok f') : f'.WellFormed size := by
  obtain ⟨t, ht, h⟩ := Except.bind_ok.mp h
  split at h
  · cases h
    refine hf.withStack fun u hu => ?_
    rcases List.mem_cons.mp hu with rfl | hu
    · exact holdsKind_ne_top ‹_›
    · exact hf.stack u hu
  · cases h

/-- A store keeps the frame well formed. -/
theorem store_wellFormed {kind : ValueKind} {slot : Nat} (hf : f.WellFormed size)
    (h : f.store kind slot = .ok f') : f'.WellFormed size := by
  obtain ⟨⟨t, stack⟩, hpop, h⟩ := Except.bind_ok.mp h
  obtain ⟨locals, hstore, h⟩ := Except.bind_ok.mp h
  cases h
  obtain ⟨hlength, hhalves⟩ := storeLocal_halves hf.halves hstore
  refine ⟨hlength.trans hf.length, hhalves, hf.suffix ?_⟩
  rw [(popWhere_eq hpop).1]
  exact List.suffix_cons t stack

/-- A load from an array keeps the frame well formed. -/
theorem arrayLoad_wellFormed {element : ElementKind} (hf : f.WellFormed size)
    (h : f.arrayLoad element = .ok f') : f'.WellFormed size := by
  obtain ⟨stack, hindex, h⟩ := Except.bind_ok.mp h
  obtain ⟨⟨array, rest⟩, harray, h⟩ := Except.bind_ok.mp h
  have hsuffix : rest <:+ f.stack := by
    rw [popExactly_eq hindex]
    rcases popArray_eq harray with ⟨-, rfl⟩ | ⟨type, -, -, rfl⟩ <;>
      exact ⟨[_, _], rfl⟩
  have hpush : ∀ t : SlotType, t ≠ .top → WellFormed size { f with stack := t :: rest } := by
    refine fun t ht => hf.withStack fun u hu => ?_
    rcases List.mem_cons.mp hu with rfl | hu
    · exact ht
    · exact hf.suffix hsuffix u hu
  have hslot : ∀ t, element.slot? = some t → t ≠ .top := by
    intro t ht
    cases element <;> cases ht <;> nofun
  simp only at h
  split at h
  · cases h
    exact hpush _ (hslot _ ‹_›)
  · cases h
    exact hpush _ nofun
  · split at h
    · cases h
      exact hpush _ nofun
    · cases h

/-- **Rearranging** takes some values off the stack and puts the same values back: in another order,
some of them twice, or none of them. -/
theorem rearrange_inv {op : StackOp} (h : f.rearrange op = .ok f') : ∃ taken put rest,
    f.stack = taken ++ rest ∧ f' = { f with stack := put ++ rest } ∧ (∀ t ∈ put, t ∈ taken) ∧
      put.length ≤ taken.length + 2 := by
  simp only [rearrange] at h
  split at h
  · obtain ⟨⟨copied, stack⟩, hcopied, h⟩ := Except.bind_ok.mp h
    obtain ⟨⟨between, rest⟩, hbetween, h⟩ := Except.bind_ok.mp h
    cases h
    have hlength := popWords_length hcopied
    refine ⟨copied ++ between, copied ++ between ++ copied, rest, ?_, rfl, fun t ht => ?_, ?_⟩
    · calc f.stack = copied ++ stack := popWords_eq hcopied
        _ = copied ++ (between ++ rest) := congrArg (copied ++ ·) (popWords_eq hbetween)
        _ = copied ++ between ++ rest := (List.append_assoc ..).symm
    · simp only [List.mem_append] at ht ⊢
      tauto
    · simp only [List.length_append]
      omega
  · split at h
    · obtain ⟨⟨taken, stack⟩, htaken, h⟩ := Except.bind_ok.mp h
      cases h
      exact ⟨taken, [], stack, popWords_eq htaken, rfl, List.forall_mem_nil _, Nat.zero_le _⟩
    · obtain ⟨⟨taken, stack⟩, htaken, h⟩ := Except.bind_ok.mp h
      cases h
      exact ⟨taken, [], stack, popWords_eq htaken, rfl, List.forall_mem_nil _, Nat.zero_le _⟩
    · obtain ⟨⟨t, stack⟩, ht, h⟩ := Except.bind_ok.mp h
      obtain ⟨⟨u, rest⟩, hu, h⟩ := Except.bind_ok.mp h
      cases h
      refine ⟨[t, u], [u, t], rest, ?_, rfl, fun v hv => ?_, Nat.le_add_right _ 2⟩
      · exact (popNarrow_eq ht).1.trans (congrArg (t :: ·) (popNarrow_eq hu).1)
      · simp only [List.mem_cons] at hv ⊢
        tauto

/-- Rearranging the stack keeps the frame well formed. -/
theorem rearrange_wellFormed {op : StackOp} (hf : f.WellFormed size)
    (h : f.rearrange op = .ok f') : f'.WellFormed size := by
  obtain ⟨taken, put, rest, hstack, rfl, hput, -⟩ := rearrange_inv h
  refine hf.withStack fun t ht => hf.stack t ?_
  rw [hstack]
  exact (List.mem_append.mp ht).elim (fun ht => List.mem_append_left _ (hput t ht))
    (List.mem_append_right _)

/-- What an instruction that takes one value of a kind leaves. -/
theorem WellFormed.popWhere {p : SlotType → Bool} {t : SlotType} {stack : List SlotType}
    (hf : f.WellFormed size) (h : Frame.popWhere p f.stack = .ok (t, stack)) :
    WellFormed size { f with stack } :=
  hf.withStack (hf.suffix (by rw [(popWhere_eq h).1]; exact List.suffix_cons t stack))

/-- The frame at a handler is well formed if that of the covered code is. -/
theorem WellFormed.handler (hf : f.WellFormed size) (caught : Option ClassName) :
    (f.handler caught).WellFormed size := by
  refine hf.withStack fun t ht => ?_
  obtain rfl := List.mem_singleton.mp ht
  exact nofun

/-- Pushing what is not `top` keeps the frame well formed. -/
theorem WellFormed.push (hf : f.WellFormed size) {t : SlotType} (ht : t ≠ .top) :
    WellFormed size { f with stack := t :: f.stack } := by
  refine hf.withStack fun u hu => ?_
  rcases List.mem_cons.mp hu with rfl | hu
  · exact ht
  · exact hf.stack u hu

/-- **The step.** -/
theorem step_wellFormed {context : MethodContext} {index : Nat} {i : Instruction}
    (hf : f.WellFormed size) (h : f.step context index i = .ok f') : f'.WellFormed size := by
  cases hfixed : i.fixedEffect? with
  | some effect =>
    obtain ⟨taken, put⟩ := effect
    -- fixed effects: what is left lies below what was taken
    simp only [step, hfixed] at h
    obtain ⟨stack, hpop, h⟩ := Except.bind_ok.mp h
    cases h
    refine hf.withStack fun t ht => ?_
    rcases List.mem_append.mp ht with ht | ht
    · exact fixedEffect_ne_top hfixed t ht
    · exact hf.suffix ⟨taken, (popExactly_eq hpop).symm⟩ t ht
  | none =>
    simp only [step, hfixed] at h
    split at h
    · -- the other instructions, in the order of their definition
      exact load_wellFormed hf h
    · exact store_wellFormed hf h
    · exact arrayLoad_wellFormed hf h
    · -- array stores take everything and leave nothing
      obtain ⟨⟨_, stack₁⟩, hvalue, h⟩ := Except.bind_ok.mp h
      obtain ⟨stack₂, hindex, h⟩ := Except.bind_ok.mp h
      obtain ⟨⟨_, stack₃⟩, harray, h⟩ := Except.bind_ok.mp h
      cases h
      have h₁ : stack₁ <:+ f.stack := ⟨[_], (popWhere_eq hvalue).1.symm⟩
      have h₂ : stack₂ <:+ stack₁ := ⟨_, (popExactly_eq hindex).symm⟩
      have h₃ : stack₃ <:+ stack₂ := by
        rcases popArray_eq harray with ⟨-, heq⟩ | ⟨_, -, -, heq⟩ <;> exact ⟨[_], heq.symm⟩
      exact hf.withStack (hf.suffix ((h₃.trans h₂).trans h₁))
    · exact rearrange_wellFormed hf h
    · obtain ⟨t, -, h⟩ := Except.bind_ok.mp h
      split at h
      · cases h
        exact hf
      · cases h
    · obtain ⟨stack, hpop, h⟩ := Except.bind_ok.mp h
      cases h
      exact hf.withStack (hf.suffix (popFitting_suffix hpop))
    · obtain ⟨⟨_, stack⟩, hpop, h⟩ := Except.bind_ok.mp h
      cases h
      exact (hf.popWhere hpop).push (ofField_ne_top _)
    · obtain ⟨stack₁, hvalue, h⟩ := Except.bind_ok.mp h
      obtain ⟨⟨_, stack₂⟩, hpop, h⟩ := Except.bind_ok.mp h
      cases h
      exact (hf.withStack (hf.suffix (popFitting_suffix hvalue))).popWhere hpop
    · exact invoke_wellFormed hf h
    · obtain ⟨stack, hpop, h⟩ := Except.bind_ok.mp h
      cases h
      exact hf.withStack (pushResult_ne_top (hf.suffix (popFitting_suffix hpop)))
    · cases h
      exact hf.push nofun
    · -- arrays of several dimensions
      split at h
      · cases h
      · obtain ⟨stack, hpop, h⟩ := Except.bind_ok.mp h
        cases h
        exact (hf.withStack (hf.suffix ⟨_, (popExactly_eq hpop).symm⟩)).push nofun
    · obtain ⟨⟨_, stack⟩, hpop, h⟩ := Except.bind_ok.mp h
      cases h
      have hsuffix : stack <:+ f.stack := by
        rcases popArray_eq hpop with ⟨-, heq⟩ | ⟨_, -, -, heq⟩ <;> exact ⟨[_], heq.symm⟩
      exact (hf.withStack (hf.suffix hsuffix)).push nofun
    · obtain ⟨⟨_, stack⟩, hpop, h⟩ := Except.bind_ok.mp h
      cases h
      exact (hf.popWhere hpop).push nofun
    · obtain ⟨⟨_, stack⟩, hpop, h⟩ := Except.bind_ok.mp h
      cases h
      exact (hf.popWhere hpop).push nofun
    · obtain ⟨⟨_, stack⟩, hpop, h⟩ := Except.bind_ok.mp h
      cases h
      exact hf.popWhere hpop
    · obtain ⟨⟨_, stack⟩, hpop, h⟩ := Except.bind_ok.mp h
      cases h
      exact hf.popWhere hpop
    · obtain ⟨⟨_, stack⟩, hpop, h⟩ := Except.bind_ok.mp h
      cases h
      exact hf.popWhere hpop
    · -- two references are compared
      cases hstack : f.stack with
      | nil =>
        rw [hstack] at h
        cases h
      | cons t rest =>
        rw [hstack] at h
        cases rest with
        | nil => cases h
        | cons u rest =>
          simp only [pop, bind, Except.bind] at h
          split at h
          · cases h
            exact hf.withStack (hf.suffix (hstack ▸ ⟨[t, u], rfl⟩))
          · cases h
    · -- a return takes what the method declares
      obtain ⟨t, rest, hstack, rfl⟩ := returnValue_inv h
      exact hf.withStack (hf.suffix (hstack ▸ List.suffix_cons t rest))
    · split at h
      · cases h
        exact hf
      · cases h
    · obtain ⟨⟨t, stack⟩, hpop, h⟩ := Except.bind_ok.mp h
      cases h
      refine hf.withStack fun u hu => ?_
      obtain rfl := List.mem_singleton.mp hu
      exact hf.stack u (by rw [(popWhere_eq hpop).1]; exact List.mem_cons_self ..)
    · cases h

/-! ## Merging -/

/-- A successful traversal gives one result for each item. -/
theorem mapM_ok {ε α β : Type} {f : α → Except ε β} {xs : List α} {ys : List β}
    (h : xs.mapM f = .ok ys) :
    ys.length = xs.length ∧ ∀ (k : Nat) y, ys[k]? = some y → ∃ x, xs[k]? = some x ∧ f x = .ok y := by
  induction xs generalizing ys with
  | nil =>
    cases h
    exact ⟨rfl, nofun⟩
  | cons x xs ih =>
    rw [List.mapM_cons] at h
    obtain ⟨y, hy, h⟩ := Except.bind_ok.mp h
    obtain ⟨ys', hys, h⟩ := Except.bind_ok.mp h
    cases h
    obtain ⟨hlength, hall⟩ := ih hys
    refine ⟨by rw [List.length_cons, List.length_cons, hlength], fun k y' hk => ?_⟩
    cases k with
    | zero =>
      cases hk
      exact ⟨x, rfl, hy⟩
    | succ k => exact hall k y' hk

theorem withoutHalves_length (locals : List SlotType) :
    (withoutHalves locals).length = locals.length := by
  cases locals with
  | nil => rfl
  | cons t locals => simp [withoutHalves]

/-- A wide type stays if its second half is next to it, and every other type stays. -/
theorem withoutHalves_getElem? (locals : List SlotType) (i : Nat) :
    (withoutHalves locals)[i]? = locals[i]?.map fun t => unlessHalf t locals[i + 1]? := by
  simp only [withoutHalves, List.getElem?_zipWith]
  cases hi : locals[i]? with
  | none => rfl
  | some t =>
    have hlt := (List.getElem?_eq_some_iff.mp hi).1
    have hnext : (locals.tail.map some ++ [none])[i]? = some locals[i + 1]? := by
      by_cases hlast : i + 1 < locals.length
      · rw [List.getElem?_append_left (by simp; omega), List.getElem?_map, List.getElem?_tail,
          List.getElem?_eq_getElem hlast]
        rfl
      · rw [List.getElem?_append_right (by simp; omega),
          List.getElem?_eq_none (Nat.not_lt.mp hlast), List.length_map, List.length_tail,
          show i - (locals.length - 1) = 0 by omega]
        rfl
    rw [hnext]
    rfl

/-- Taking halves away leaves no half alone: what follows a wide local was unusable and stays so. -/
theorem withoutHalves_halves (locals : List SlotType) : HalvesMatch (withoutHalves locals) := by
  intro i t hi hwide
  rw [withoutHalves_getElem?] at hi ⊢
  obtain ⟨u, -, rfl⟩ := Option.map_eq_some_iff.mp hi
  simp only [unlessHalf] at hwide
  split at hwide
  · cases hwide
  · rename_i hkept
    have hnext : locals[i + 1]? = some .top := by simpa [hwide] using hkept
    rw [hnext]
    rfl

/-- Merged stacks have no `top`. -/
theorem mergeStacks_ne_top {h : Hierarchy} {a b stack : List SlotType}
    (hok : mergeStacks h a b = .ok stack) :
    stack.length = min a.length b.length ∧ ∀ t ∈ stack, t ≠ .top := by
  obtain ⟨merged, hmerged, hok⟩ := Except.bind_ok.mp hok
  cases hok
  obtain ⟨hlength, hall⟩ := mapM_ok hmerged
  refine ⟨by simp [hlength], fun t ht => ?_⟩
  obtain ⟨k, hk⟩ := List.mem_iff_getElem?.mp (List.mem_reverse.mp ht)
  obtain ⟨⟨u, v⟩, -, hmerge⟩ := hall k t hk
  obtain ⟨w, -, hmerge⟩ := Except.bind_ok.mp hmerge
  split at hmerge
  · cases hmerge
  · cases hmerge
    assumption

/-- **Merging.** -/
theorem merge_wellFormed {h : Hierarchy} {a b : Frame} (ha : a.WellFormed size)
    (hb : b.WellFormed size) (hok : merge h a b = .ok f) : f.WellFormed size := by
  simp only [merge, bind, Except.bind] at hok
  split at hok
  · cases hok
  rename_i hdepth
  split at hok
  · cases hok
  rename_i stack hstack
  split at hok
  · cases hok
  rename_i locals hlocals
  cases hok
  have hsize : locals.length = size := by
    cases hmerged : mergeLocals h a.locals b.locals with
    | error e =>
      rw [hmerged] at hlocals
      cases hlocals
    | ok locals' =>
      rw [hmerged] at hlocals
      cases hlocals
      rw [(mapM_ok hmerged).1]
      simp [padded, ha.length, hb.length]
  exact ⟨(withoutHalves_length locals).trans hsize, withoutHalves_halves locals,
    (mergeStacks_ne_top hstack).2⟩

/-! ## The first frame -/

/-- A type put into its slots keeps the halves of wide values together. -/
theorem slotsOf_halves (t : SlotType) (rest : List SlotType) (h : HalvesMatch rest) :
    HalvesMatch (slotsOf t ++ rest) := by
  simp only [slotsOf]
  split
  · intro i u hi hu
    match i with
    | 0 => rfl
    | 1 =>
      cases hi
      cases hu
    | i + 2 => exact h i u hi hu
  · intro i u hi hu
    match i with
    | 0 =>
      cases hi
      contradiction
    | i + 1 => exact h i u hi hu

/-- Variables that hold nothing have no halves. -/
theorem replicate_halves (n : Nat) : HalvesMatch (List.replicate n .top) := by
  intro i t hi hwide
  obtain rfl := List.eq_of_mem_replicate (List.mem_of_getElem? hi)
  cases hwide

/-- **The first frame.** -/
theorem entry_wellFormed {owner : ClassName} {method : MemberName} {d : MethodDescriptor}
    {isStatic : Bool} (hsize : (arguments owner method d isStatic).length ≤ size) :
    (entry owner method d isStatic size).WellFormed size := by
  refine ⟨?_, ?_, nofun⟩
  · simp only [entry, padded, List.length_append, List.length_replicate]
    omega
  · have hparameters : ∀ parameters : List FieldType, ∀ n, HalvesMatch
        ((parameters.flatMap fun t => slotsOf (.ofField t)) ++ List.replicate n .top) := by
      intro parameters n
      induction parameters with
      | nil => exact replicate_halves n
      | cons t parameters ih =>
        rw [List.flatMap_cons, List.append_assoc]
        exact slotsOf_halves _ _ ih
    simp only [entry, padded]
    generalize size - (arguments owner method d isStatic).length = n
    cases isStatic with
    | true => exact hparameters d.parameters n
    | false =>
      have hnarrow : slotsOf (receiver owner method) = [receiver owner method] := by
        simp only [receiver]
        split <;> rfl
      have hreceiver := slotsOf_halves (receiver owner method) _ (hparameters d.parameters n)
      rw [hnarrow] at hreceiver
      exact hreceiver

end Frame

end Resumption
