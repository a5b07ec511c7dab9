import Resumption.Proofs.Frame.Order

/-!
# Where entries of a frame come from

Most entries after an instruction were there before. The others the instruction puts there whatever
it finds (`Instruction.puts`), or they are elements of an array, or objects that a constructor has
initialized (`Frame.Comes`). So all classes in a frame come from the code (`step_known`).
-/

namespace Resumption

/-- Types that an instruction with this index can put on the stack whatever it finds there. -/
def Instruction.puts (index : Nat) (i : Instruction) : List SlotType :=
  match i.fixedEffect? with
  | some (_, put) => put
  | none =>
    match i with
    | .arrayLoad element => .null :: element.slot?.toList
    | .getField field => [.ofField field.type]
    | .invoke _ m => (m.descriptor.result.map SlotType.ofField).toList
    | .invokeDynamic site => (site.descriptor.result.map SlotType.ofField).toList
    | .new name => [.uninitialized name index]
    | .newMultiArray type _ | .checkCast type => [.object type]
    | .arrayLength | .instanceOf _ => [.integer]
    | _ => []

namespace Frame

/-- Where an entry of the frame after an instruction comes from. -/
inductive Comes (context : MethodContext) (index : Nat) (i : Instruction) (f : Frame) :
    SlotType → Prop
  /-- it was an operand -/
  | stack {t : SlotType} (ht : t ∈ f.stack) : Comes context index i f t
  /-- it was in a variable -/
  | slot {t : SlotType} (ht : t ∈ f.locals) : Comes context index i f t
  /-- nothing is known of it -/
  | top : Comes context index i f .top
  /-- the instruction puts it there -/
  | put {t : SlotType} (ht : t ∈ i.puts index) : Comes context index i f t
  /-- it is an element of an array that was an operand -/
  | element {type inner : RefType} (htype : .object type ∈ f.stack)
    (hinner : type.element? = some (.ref inner)) : Comes context index i f (.object inner)
  /-- it is the receiver, once a constructor has run -/
  | this : Comes context index i f (.ofClass context.owner)
  /-- it is a new instance, once a constructor has run -/
  | initialized {name : ClassName} {k : Nat} (hnew : .uninitialized name k ∈ f.stack) :
    Comes context index i f (.ofClass name)

variable {context : MethodContext} {index : Nat} {i : Instruction} {f f' : Frame}

/-- An instruction that leaves the locals alone. -/
theorem Comes.withStack {stack : List SlotType}
    (hstack : ∀ t ∈ stack, Comes context index i f t) :
    All (Comes context index i f) { f with stack } :=
  ⟨fun _ ht => .slot ht, hstack⟩

/-- What is left of the operands was there. -/
theorem Comes.suffix {stack : List SlotType} (h : stack <:+ f.stack) :
    ∀ t ∈ stack, Comes context index i f t := fun _ ht => .stack (h.subset ht)

/-- What an instruction puts on what is left comes from it or was there. -/
theorem Comes.append (new : List SlotType) {stack : List SlotType} (hnew : ∀ t ∈ new, t ∈ i.puts index)
    (h : stack <:+ f.stack) : All (Comes context index i f) { f with stack := new ++ stack } := by
  refine withStack fun t ht => ?_
  rcases List.mem_append.mp ht with ht | ht
  · exact .put (hnew t ht)
  · exact .stack (h.subset ht)

theorem pop_suffix {stack rest : List SlotType} {t : SlotType} (h : pop stack = .ok (t, rest)) :
    rest <:+ stack := by
  cases stack with
  | nil => cases h
  | cons u stack =>
    cases h
    exact List.suffix_cons t rest

/-- A pop leaves operands that were there. -/
theorem popWhere_suffix {p : SlotType → Bool} {stack rest : List SlotType} {t : SlotType}
    (h : popWhere p stack = .ok (t, rest)) : rest <:+ stack := by
  rw [(popWhere_eq h).1]
  exact List.suffix_cons t rest

theorem popExactly_suffix {wanted stack rest : List SlotType}
    (h : popExactly wanted stack = .ok rest) : rest <:+ stack := ⟨wanted, (popExactly_eq h).symm⟩

theorem popArray_suffix {stack rest : List SlotType} {array : Option RefType}
    (h : popArray stack = .ok (array, rest)) : rest <:+ stack := by
  rcases popArray_eq h with ⟨-, heq⟩ | ⟨_, -, -, heq⟩ <;> exact ⟨[_], heq.symm⟩

/-- After a store, a variable is as it was, unknown, or the stored value. -/
theorem storeLocal_mem {locals locals' : List SlotType} {slot : Nat} {t u : SlotType}
    (h : storeLocal locals slot t = .ok locals') (hu : u ∈ locals') :
    u ∈ locals ∨ u = .top ∨ u = t := by
  simp only [storeLocal] at h
  split at h
  · cases h
  cases h
  have hruined : ∀ u ∈ ruinBefore locals slot, u ∈ locals ∨ u = .top := by
    intro u hu
    simp only [ruinBefore] at hu
    split at hu
    · exact List.mem_or_eq_of_mem_set hu
    · exact .inl hu
  rcases List.mem_or_eq_of_mem_set hu with hu | rfl
  · split at hu
    · rcases List.mem_or_eq_of_mem_set hu with hu | rfl
      · exact (hruined u hu).imp_right .inl
      · exact .inr (.inl rfl)
    · exact (hruined u hu).imp_right .inl
  · exact .inr (.inr rfl)

/-- Everything in a frame after a store comes from somewhere. -/
theorem store_entries {kind : ValueKind} {slot : Nat} (h : f.store kind slot = .ok f') :
    f'.All (Comes context index i f) := by
  obtain ⟨⟨t, stack⟩, hpop, h⟩ := Except.bind_ok.mp h
  obtain ⟨locals, hstore, h⟩ := Except.bind_ok.mp h
  cases h
  have ht : t ∈ f.stack := by
    rw [(popWhere_eq hpop).1]
    exact List.mem_cons_self ..
  refine ⟨fun u hu => ?_, Comes.suffix (popWhere_suffix hpop)⟩
  rcases storeLocal_mem hstore hu with hu | rfl | rfl
  · exact .slot hu
  · exact .top
  · exact .stack ht

/-- Everything in a frame after a load comes from somewhere. -/
theorem load_entries {kind : ValueKind} {slot : Nat} (h : f.load kind slot = .ok f') :
    f'.All (Comes context index i f) := by
  obtain ⟨t, ht, h⟩ := Except.bind_ok.mp h
  have hmem : t ∈ f.locals := List.mem_of_getElem? (local?_ok.mp ht)
  split at h
  · cases h
    exact Comes.withStack (List.forall_mem_cons.mpr ⟨.slot hmem, fun _ hu => .stack hu⟩)
  · cases h

/-- An element comes from an array. -/
theorem arrayLoad_entries {element : ElementKind} (h : f.arrayLoad element = .ok f') :
    f'.All (Comes context index (.arrayLoad element) f) := by
  obtain ⟨stack, hindex, h⟩ := Except.bind_ok.mp h
  obtain ⟨⟨array, rest⟩, harray, h⟩ := Except.bind_ok.mp h
  have hsuffix : rest <:+ f.stack := (popArray_suffix harray).trans (popExactly_suffix hindex)
  have hpush : ∀ t, Comes context index (.arrayLoad element) f t →
      All (Comes context index (.arrayLoad element) f) { f with stack := t :: rest } :=
    fun t ht => Comes.withStack (List.forall_mem_cons.mpr ⟨ht, Comes.suffix hsuffix⟩)
  have hputs : (Instruction.arrayLoad element).puts index = .null :: element.slot?.toList := rfl
  simp only at h
  split at h
  · rename_i t hslot
    cases h
    refine hpush t (.put ?_)
    rw [hputs, hslot]
    exact List.mem_cons_of_mem _ (List.mem_cons_self ..)
  · cases h
    refine hpush .null (.put ?_)
    rw [hputs]
    exact List.mem_cons_self ..
  · rename_i type hnone
    split at h
    · rename_i inner hinner
      cases h
      have htype : .object type ∈ f.stack := by
        rcases popArray_eq harray with ⟨hnone, -⟩ | ⟨type', hsome, -, heq⟩
        · cases hnone
        · cases hsome
          exact (popExactly_suffix hindex).subset (heq ▸ List.mem_cons_self ..)
      exact hpush _ (.element htype hinner)
    · cases h

/-- Rearranging puts nothing on the stack that was not there. -/
theorem rearrange_entries {op : StackOp} (h : f.rearrange op = .ok f') :
    f'.All (Comes context index i f) := by
  obtain ⟨taken, put, rest, hstack, rfl, hput, -⟩ := rearrange_inv h
  refine Comes.withStack fun t ht => .stack ?_
  rw [hstack]
  exact (List.mem_append.mp ht).elim (fun ht => List.mem_append_left _ (hput t ht))
    (List.mem_append_right _)

/-- Initialized objects take the place of the receiver of a constructor. -/
theorem replaceAll_entries {stack : List SlotType} {old new : SlotType}
    (hsuffix : stack <:+ f.stack) (hnew : Comes context index i f new) :
    ({ f with stack }.replaceAll old new).All (Comes context index i f) := by
  refine ⟨fun t ht => ?_, fun t ht => ?_⟩
  · obtain ⟨u, hu, rfl⟩ := List.mem_map.mp ht
    split
    · exact hnew
    · exact .slot hu
  · obtain ⟨u, hu, rfl⟩ := List.mem_map.mp ht
    split
    · exact hnew
    · exact .stack (hsuffix.subset hu)

/-- The result of a call comes from its descriptor, an initialized instance from a new one. -/
theorem invoke_entries {kind : CallKind} {ref : MethodRef}
    (h : f.invoke context kind ref = .ok f') :
    f'.All (Comes context index (.invoke kind ref) f) := by
  obtain ⟨rest, hrest, rfl | ⟨old, new, hold, rfl, hinitializes⟩⟩ := invoke_inv h
  · exact Comes.append _ (fun _ ht => ht) hrest
  · rcases hinitializes with ⟨rfl, rfl⟩ | ⟨name, k, rfl, rfl⟩
    · exact replaceAll_entries hrest .this
    · exact replaceAll_entries hrest (.initialized hold)

/-- Returning puts nothing anywhere. -/
theorem returnValue_entries {kind : ValueKind} (h : f.returnValue context kind = .ok f') :
    f'.All (Comes context index i f) := by
  obtain ⟨t, rest, hstack, rfl⟩ := returnValue_inv h
  exact Comes.withStack (Comes.suffix (hstack ▸ List.suffix_cons t rest))

/-- **The step.** -/
theorem step_entries (h : f.step context index i = .ok f') : f'.All (Comes context index i f) := by
  have hkeep : f.All (Comes context index i f) := ⟨fun _ => .slot, fun _ => .stack⟩
  cases hfixed : i.fixedEffect? with
  | some effect =>
    obtain ⟨taken, put⟩ := effect
    simp only [step, hfixed] at h
    obtain ⟨stack, hpop, h⟩ := Except.bind_ok.mp h
    cases h
    exact Comes.append _ (by simp [Instruction.puts, hfixed]) (popExactly_suffix hpop)
  | none =>
    simp only [step, hfixed] at h
    split at h
    · exact load_entries h
    · exact store_entries h
    · exact arrayLoad_entries h
    · obtain ⟨⟨_, stack₁⟩, hvalue, h⟩ := Except.bind_ok.mp h
      obtain ⟨stack₂, hindex, h⟩ := Except.bind_ok.mp h
      obtain ⟨⟨_, stack₃⟩, harray, h⟩ := Except.bind_ok.mp h
      cases h
      exact Comes.withStack (Comes.suffix
        (((popArray_suffix harray).trans (popExactly_suffix hindex)).trans (popWhere_suffix hvalue)))
    · exact rearrange_entries h
    · obtain ⟨t, -, h⟩ := Except.bind_ok.mp h
      split at h
      · cases h
        exact hkeep
      · cases h
    · obtain ⟨stack, hpop, h⟩ := Except.bind_ok.mp h
      cases h
      exact Comes.withStack (Comes.suffix (popFitting_suffix hpop))
    · obtain ⟨⟨_, stack⟩, hpop, h⟩ := Except.bind_ok.mp h
      cases h
      exact Comes.append [_] (fun _ ht => ht) (popWhere_suffix hpop)
    · obtain ⟨stack₁, hvalue, h⟩ := Except.bind_ok.mp h
      obtain ⟨⟨_, stack₂⟩, hpop, h⟩ := Except.bind_ok.mp h
      cases h
      exact Comes.withStack (Comes.suffix ((popWhere_suffix hpop).trans (popFitting_suffix hvalue)))
    · exact invoke_entries h
    · obtain ⟨stack, hpop, h⟩ := Except.bind_ok.mp h
      cases h
      exact Comes.append _ (fun _ ht => ht) (popFitting_suffix hpop)
    · cases h
      exact Comes.append [_] (fun _ ht => ht) List.suffix_rfl
    · split at h
      · cases h
      · obtain ⟨stack, hpop, h⟩ := Except.bind_ok.mp h
        cases h
        exact Comes.append [_] (fun _ ht => ht) (popExactly_suffix hpop)
    · obtain ⟨⟨_, stack⟩, hpop, h⟩ := Except.bind_ok.mp h
      cases h
      exact Comes.append [_] (fun _ ht => ht) (popArray_suffix hpop)
    · obtain ⟨⟨_, stack⟩, hpop, h⟩ := Except.bind_ok.mp h
      cases h
      exact Comes.append [_] (fun _ ht => ht) (popWhere_suffix hpop)
    · obtain ⟨⟨_, stack⟩, hpop, h⟩ := Except.bind_ok.mp h
      cases h
      exact Comes.append [_] (fun _ ht => ht) (popWhere_suffix hpop)
    · obtain ⟨⟨_, stack⟩, hpop, h⟩ := Except.bind_ok.mp h
      cases h
      exact Comes.withStack (Comes.suffix (popWhere_suffix hpop))
    · obtain ⟨⟨_, stack⟩, hpop, h⟩ := Except.bind_ok.mp h
      cases h
      exact Comes.withStack (Comes.suffix (popWhere_suffix hpop))
    · obtain ⟨⟨_, stack⟩, hpop, h⟩ := Except.bind_ok.mp h
      cases h
      exact Comes.withStack (Comes.suffix (popWhere_suffix hpop))
    · -- two references are compared
      obtain ⟨⟨t, stack₁⟩, hfirst, h⟩ := Except.bind_ok.mp h
      obtain ⟨⟨u, stack₂⟩, hsecond, h⟩ := Except.bind_ok.mp h
      split at h
      · cases h
        exact Comes.withStack (Comes.suffix ((pop_suffix hsecond).trans (pop_suffix hfirst)))
      · cases h
    · exact returnValue_entries h
    · split at h
      · cases h
        exact hkeep
      · cases h
    · obtain ⟨⟨t, stack⟩, hpop, h⟩ := Except.bind_ok.mp h
      cases h
      refine Comes.withStack fun u hu => .stack ?_
      obtain rfl := List.mem_singleton.mp hu
      rw [(popWhere_eq hpop).1]
      exact List.mem_cons_self ..
    · cases h

/-! ## Known classes -/

variable {h : Hierarchy} {size : Nat}

/-- What is known of an array is known of its elements. -/
theorem element_known {type inner : RefType} (htype : h.KnowsType type)
    (hinner : type.element? = some (.ref inner)) : h.KnowsType inner := by
  cases type with
  | object c => cases hinner
  | objectArray extra c =>
    cases extra with
    | zero =>
      cases hinner
      exact htype
    | succ extra =>
      cases hinner
      exact htype
  | primitiveArray extra c =>
    cases extra with
    | zero => cases hinner
    | succ extra =>
      cases hinner
      exact trivial

/-- Instructions bring no class into a frame but those that the code names. -/
theorem step_known (howner : h.Knows context.owner)
    (hputs : ∀ t ∈ i.puts index, SlotType.KnownIn h t) (hf : f.All (SlotType.KnownIn h))
    (hok : f.step context index i = .ok f') : f'.All (SlotType.KnownIn h) := by
  have hcomes : ∀ t, Comes context index i f t → t.KnownIn h := by
    intro t ht
    cases ht with
    | stack ht => exact hf.2 t ht
    | slot ht => exact hf.1 t ht
    | top => exact trivial
    | put ht => exact hputs t ht
    | element htype hinner => exact element_known (hf.2 _ htype) hinner
    | this => exact howner
    | @initialized name k hnew => exact hf.2 (.uninitialized name k) hnew
  obtain ⟨hlocals, hstack⟩ := step_entries hok
  exact ⟨fun t ht => hcomes t (hlocals t ht), fun t ht => hcomes t (hstack t ht)⟩

/-- A step keeps frames well formed and their classes known. -/
theorem step_sound (howner : h.Knows context.owner)
    (hputs : ∀ t ∈ i.puts index, SlotType.KnownIn h t) (hf : f.Sound h size)
    (hok : f.step context index i = .ok f') : f'.Sound h size :=
  ⟨step_wellFormed hf.wellFormed hok, step_known howner hputs hf.known hok⟩

end Frame

end Resumption
