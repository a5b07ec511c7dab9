import Resumption.Analysis.Basic
import Resumption.Proofs.Frame.Entries

/-!
# How large a frame can get

An instruction makes a frame larger in two ways, and both are bounded by the code alone:

* **`step_depth`**: it puts no more than two entries on the stack in addition to those that were there;
* **`step_dimensions`**: it brings no more array dimensions than its own operands name
  (`Instruction.dimensions`). Taking an element out of an array only loses some.
-/

namespace Resumption

namespace Frame

variable {context : MethodContext} {index : Nat} {i : Instruction} {f f' : Frame}

/-! ## The stack -/

/-- Two entries at most, put on what is left of a stack. -/
theorem depth_append (new : List SlotType) {rest stack : List SlotType} (hnew : new.length ≤ 2)
    (hrest : rest <:+ stack) : (new ++ rest).length ≤ stack.length + 2 := by
  have hle := hrest.length_le
  rw [List.length_append]
  omega

theorem depth_suffix {rest stack : List SlotType} (hrest : rest <:+ stack) :
    rest.length ≤ stack.length + 2 := Nat.le_add_right_of_le hrest.length_le

theorem load_depth {kind : ValueKind} {slot : Nat} (h : f.load kind slot = .ok f') :
    f'.stack.length ≤ f.stack.length + 2 := by
  obtain ⟨t, -, h⟩ := Except.bind_ok.mp h
  split at h
  · cases h
    exact depth_append [t] (Nat.le_succ 1) List.suffix_rfl
  · cases h

theorem store_depth {kind : ValueKind} {slot : Nat} (h : f.store kind slot = .ok f') :
    f'.stack.length ≤ f.stack.length + 2 := by
  obtain ⟨⟨t, stack⟩, hpop, h⟩ := Except.bind_ok.mp h
  obtain ⟨locals, -, h⟩ := Except.bind_ok.mp h
  cases h
  exact depth_suffix (popWhere_suffix hpop)

theorem arrayLoad_depth {element : ElementKind} (h : f.arrayLoad element = .ok f') :
    f'.stack.length ≤ f.stack.length + 2 := by
  obtain ⟨stack, hindex, h⟩ := Except.bind_ok.mp h
  obtain ⟨⟨array, rest⟩, harray, h⟩ := Except.bind_ok.mp h
  have hpush : ∀ t : SlotType, (t :: rest).length ≤ f.stack.length + 2 := fun t =>
    depth_append [t] (Nat.le_succ 1) ((popArray_suffix harray).trans (popExactly_suffix hindex))
  simp only at h
  split at h
  · cases h
    exact hpush _
  · cases h
    exact hpush _
  · split at h
    · cases h
      exact hpush _
    · cases h

theorem rearrange_depth {op : StackOp} (h : f.rearrange op = .ok f') :
    f'.stack.length ≤ f.stack.length + 2 := by
  obtain ⟨taken, put, rest, hstack, rfl, -, hlength⟩ := rearrange_inv h
  rw [hstack]
  simp only [List.length_append]
  omega

theorem pushResult_depth {result : Option FieldType} {stack : List SlotType}
    (hstack : stack <:+ f.stack) : (pushResult result stack).length ≤ f.stack.length + 2 := by
  refine depth_append _ ?_ hstack
  cases result with
  | none => exact Nat.zero_le 2
  | some t => exact Nat.le_succ 1

theorem invoke_depth {kind : CallKind} {ref : MethodRef} (h : f.invoke context kind ref = .ok f') :
    f'.stack.length ≤ f.stack.length + 2 := by
  obtain ⟨rest, hrest, rfl | ⟨old, new, -, rfl, -⟩⟩ := invoke_inv h
  · exact pushResult_depth hrest
  · rw [replaceAll, List.length_map]
    exact depth_suffix hrest

theorem returnValue_depth {kind : ValueKind} (h : f.returnValue context kind = .ok f') :
    f'.stack.length ≤ f.stack.length + 2 := by
  obtain ⟨t, rest, hstack, rfl⟩ := returnValue_inv h
  exact depth_suffix (hstack ▸ List.suffix_cons t rest)

theorem fixedEffect_length {taken put : List SlotType} (h : i.fixedEffect? = some (taken, put)) :
    put.length ≤ 2 := by
  cases i <;> cases h <;> simp

/-- **The stack.** -/
theorem step_depth (h : f.step context index i = .ok f') :
    f'.stack.length ≤ f.stack.length + 2 := by
  cases hfixed : i.fixedEffect? with
  | some effect =>
    obtain ⟨taken, put⟩ := effect
    simp only [step, hfixed] at h
    obtain ⟨stack, hpop, h⟩ := Except.bind_ok.mp h
    cases h
    exact depth_append put (fixedEffect_length hfixed) (popExactly_suffix hpop)
  | none =>
    simp only [step, hfixed] at h
    split at h
    · exact load_depth h
    · exact store_depth h
    · exact arrayLoad_depth h
    · obtain ⟨⟨_, stack₁⟩, hvalue, h⟩ := Except.bind_ok.mp h
      obtain ⟨stack₂, hindex, h⟩ := Except.bind_ok.mp h
      obtain ⟨⟨_, stack₃⟩, harray, h⟩ := Except.bind_ok.mp h
      cases h
      exact depth_suffix
        (((popArray_suffix harray).trans (popExactly_suffix hindex)).trans (popWhere_suffix hvalue))
    · exact rearrange_depth h
    · obtain ⟨t, -, h⟩ := Except.bind_ok.mp h
      split at h
      · cases h
        exact depth_suffix List.suffix_rfl
      · cases h
    · obtain ⟨stack, hpop, h⟩ := Except.bind_ok.mp h
      cases h
      exact depth_suffix (popFitting_suffix hpop)
    · obtain ⟨⟨_, stack⟩, hpop, h⟩ := Except.bind_ok.mp h
      cases h
      exact depth_append [_] (Nat.le_succ 1) (popWhere_suffix hpop)
    · obtain ⟨stack₁, hvalue, h⟩ := Except.bind_ok.mp h
      obtain ⟨⟨_, stack₂⟩, hpop, h⟩ := Except.bind_ok.mp h
      cases h
      exact depth_suffix ((popWhere_suffix hpop).trans (popFitting_suffix hvalue))
    · exact invoke_depth h
    · obtain ⟨stack, hpop, h⟩ := Except.bind_ok.mp h
      cases h
      exact pushResult_depth (popFitting_suffix hpop)
    · cases h
      exact depth_append [_] (Nat.le_succ 1) List.suffix_rfl
    · split at h
      · cases h
      · obtain ⟨stack, hpop, h⟩ := Except.bind_ok.mp h
        cases h
        exact depth_append [_] (Nat.le_succ 1) (popExactly_suffix hpop)
    · obtain ⟨⟨_, stack⟩, hpop, h⟩ := Except.bind_ok.mp h
      cases h
      exact depth_append [_] (Nat.le_succ 1) (popArray_suffix hpop)
    · obtain ⟨⟨_, stack⟩, hpop, h⟩ := Except.bind_ok.mp h
      cases h
      exact depth_append [_] (Nat.le_succ 1) (popWhere_suffix hpop)
    · obtain ⟨⟨_, stack⟩, hpop, h⟩ := Except.bind_ok.mp h
      cases h
      exact depth_append [_] (Nat.le_succ 1) (popWhere_suffix hpop)
    · obtain ⟨⟨_, stack⟩, hpop, h⟩ := Except.bind_ok.mp h
      cases h
      exact depth_suffix (popWhere_suffix hpop)
    · obtain ⟨⟨_, stack⟩, hpop, h⟩ := Except.bind_ok.mp h
      cases h
      exact depth_suffix (popWhere_suffix hpop)
    · obtain ⟨⟨_, stack⟩, hpop, h⟩ := Except.bind_ok.mp h
      cases h
      exact depth_suffix (popWhere_suffix hpop)
    · -- two references are compared
      obtain ⟨⟨t, stack₁⟩, hfirst, h⟩ := Except.bind_ok.mp h
      obtain ⟨⟨u, stack₂⟩, hsecond, h⟩ := Except.bind_ok.mp h
      split at h
      · cases h
        exact depth_suffix ((pop_suffix hsecond).trans (pop_suffix hfirst))
      · cases h
    · exact returnValue_depth h
    · split at h
      · cases h
        exact depth_suffix List.suffix_rfl
      · cases h
    · obtain ⟨⟨t, stack⟩, -, h⟩ := Except.bind_ok.mp h
      cases h
      exact Nat.le_add_left_of_le (Nat.le_succ 1)
    · cases h

end Frame

/-! ## Array dimensions -/

theorem SlotType.ofField_dimensions (t : FieldType) : (SlotType.ofField t).dimensions =
    match t with
    | .ref type => type.dimensions
    | .base _ => 0 := by
  cases t with
  | ref type => rfl
  | base b => cases b <;> rfl

theorem RefType.array_dimensions (t : FieldType) : (RefType.array t).dimensions =
    (match t with
    | .ref type => type.dimensions
    | .base _ => 0) + 1 := by
  cases t with
  | base b => rfl
  | ref type => cases type <;> rfl

theorem Instruction.fixedEffect_dimensions {i : Instruction} {taken put : List SlotType}
    (h : i.fixedEffect? = some (taken, put)) : ∀ t ∈ put, t.dimensions ≤ i.dimensions := by
  cases i with
  | getStatic field =>
    cases h
    simp only [List.mem_singleton, forall_eq, SlotType.ofField_dimensions, Instruction.dimensions]
    exact Nat.le_refl _
  | newArray b | newRefArray t =>
    cases h
    simp [SlotType.dimensions, RefType.array_dimensions, Instruction.dimensions]
  | convert c | pushConstant c =>
    cases h
    cases c <;> simp [Conversion.slots, Constant.slot, SlotType.ofClass, SlotType.dimensions,
      RefType.dimensions]
  | arith _ kind | neg kind | shift _ kind | bitwise _ kind =>
    cases h
    cases kind <;> simp [NumericKind.slot, IntegralKind.slot, SlotType.dimensions]
  | _ => cases h <;> simp [SlotType.dimensions]

/-- What a call or a field gives. -/
theorem Instruction.result_dimensions {result : Option FieldType} {t : SlotType} {n : Nat}
    (ht : t ∈ (result.map SlotType.ofField).toList)
    (hn : ∀ type, result = some (.ref type) → type.dimensions ≤ n) : t.dimensions ≤ n := by
  cases result with
  | none => cases ht
  | some field =>
    obtain rfl := List.mem_singleton.mp ht
    rw [SlotType.ofField_dimensions]
    cases field with
    | ref type => exact hn type rfl
    | base b => exact Nat.zero_le n

/-- **Operands.** What an instruction puts into a frame has no more dimensions than it names. -/
theorem Instruction.puts_dimensions {index : Nat} {i : Instruction} {t : SlotType}
    (ht : t ∈ i.puts index) : t.dimensions ≤ i.dimensions := by
  cases hfixed : i.fixedEffect? with
  | some effect =>
    obtain ⟨taken, put⟩ := effect
    simp only [puts, hfixed] at ht
    exact fixedEffect_dimensions hfixed t ht
  | none =>
    simp only [puts, hfixed] at ht
    split at ht
    · rename_i element
      cases element <;> simp only [ElementKind.slot?, Option.toList, List.mem_cons, List.not_mem_nil,
        or_false] at ht <;> rcases ht with rfl | rfl <;> exact Nat.zero_le _
    · rename_i field
      have hfield : t ∈ ((some field.type).map SlotType.ofField).toList := ht
      apply result_dimensions hfield
      intro type htype
      simp [Instruction.dimensions, Option.some.inj htype]
    · apply result_dimensions ht
      intro type htype
      simp [Instruction.dimensions, htype]
    · apply result_dimensions ht
      intro type htype
      simp [Instruction.dimensions, htype]
    · obtain rfl := List.mem_singleton.mp ht
      exact Nat.zero_le _
    · obtain rfl := List.mem_singleton.mp ht
      exact Nat.le_refl _
    · obtain rfl := List.mem_singleton.mp ht
      exact Nat.le_refl _
    · obtain rfl := List.mem_singleton.mp ht
      exact Nat.zero_le _
    · obtain rfl := List.mem_singleton.mp ht
      exact Nat.zero_le _
    · cases ht

namespace Frame

variable {context : MethodContext} {index : Nat} {i : Instruction} {f f' : Frame}

theorem element_dimensions {type inner : RefType} (hinner : type.element? = some (.ref inner)) :
    inner.dimensions ≤ type.dimensions := by
  cases type with
  | object c => cases hinner
  | objectArray extra c =>
    cases extra <;> cases hinner <;> simp [RefType.dimensions]
  | primitiveArray extra c =>
    cases extra with
    | zero => cases hinner
    | succ extra =>
      cases hinner
      exact Nat.le_succ _

/-- **Dimensions.** -/
theorem step_dimensions {dims : Nat} (hf : f.All (·.dimensions ≤ dims)) (hi : i.dimensions ≤ dims)
    (hok : f.step context index i = .ok f') : f'.All (·.dimensions ≤ dims) := by
  have hcomes : ∀ t, Comes context index i f t → t.dimensions ≤ dims := by
    intro t ht
    cases ht with
    | stack ht => exact hf.2 t ht
    | slot ht => exact hf.1 t ht
    | put ht => exact Nat.le_trans (Instruction.puts_dimensions ht) hi
    | element htype hinner => exact Nat.le_trans (element_dimensions hinner) (hf.2 _ htype)
    | top | this | initialized _ => exact Nat.zero_le _
  obtain ⟨hlocals, hstack⟩ := step_entries hok
  exact ⟨fun t ht => hcomes t (hlocals t ht), fun t ht => hcomes t (hstack t ht)⟩

theorem handler_dimensions {dims : Nat} (hf : f.All (·.dimensions ≤ dims))
    (caught : Option ClassName) : (f.handler caught).All (·.dimensions ≤ dims) := by
  refine ⟨hf.1, fun t ht => ?_⟩
  rw [List.mem_singleton.mp ht]
  exact Nat.zero_le _

end Frame

end Resumption
