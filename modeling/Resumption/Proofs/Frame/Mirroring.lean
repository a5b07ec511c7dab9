import Resumption.Analysis.Basic
import Resumption.Proofs.Frame.Suiting

/-!
# Instructions in frames that suit

* **`Mirrors`**: one computation succeeds whenever another one does, with a related result.
* **`Frame.Suits.step`**: an instruction that accepts a frame accepts every frame that suits it, and
  its effects suit.
-/

namespace Resumption

/-! ## Computations side by side -/

/-- Does the first computation succeed whenever the second one does, with related results? -/
def Mirrors {ε α β : Type} (R : α → β → Prop) (x : Except ε α) (y : Except ε β) : Prop :=
  ∀ b, y = .ok b → ∃ a, x = .ok a ∧ R a b

namespace Mirrors

variable {ε α β α' β' : Type} {R : α → β → Prop} {R' : α' → β' → Prop}

/-- Results that are related mirror one another. -/
theorem ok {a : α} {b : β} (hab : R a b) : Mirrors R (.ok a : Except ε α) (.ok b) := by
  rintro _ ⟨⟩
  exact ⟨a, rfl, hab⟩

/-- A failure is mirrored by anything. -/
theorem error {x : Except ε α} (e : ε) : Mirrors R x (.error e) := nofun

/-- One computation after the other is mirrored step by step. -/
theorem bind {x : Except ε α} {y : Except ε β} {f : α → Except ε α'} {g : β → Except ε β'}
    (hxy : Mirrors R x y) (hfg : ∀ a b, R a b → Mirrors R' (f a) (g b)) :
    Mirrors R' (x >>= f) (y >>= g) := by
  intro b' hb'
  obtain ⟨b, hb, hb'⟩ := Except.bind_ok.mp hb'
  obtain ⟨a, ha, hab⟩ := hxy b hb
  obtain ⟨a', ha', hR⟩ := hfg a b hab b' hb'
  exact ⟨a', Except.bind_ok.mpr ⟨a, ha, ha'⟩, hR⟩

/-- A check that the first passes whenever the second does. -/
theorem guarded {p q : Prop} [Decidable p] [Decidable q] {x : Except ε α} {y : Except ε β} {e : ε}
    (hpq : q → p) (hxy : Mirrors R x y) :
    Mirrors R (if p then x else .error e) (if q then y else .error e) := by
  by_cases hq : q
  · rw [if_pos hq, if_pos (hpq hq)]
    exact hxy
  · rw [if_neg hq]
    exact error e

end Mirrors

/-! ## Frames -/

namespace Frame

variable {place : Nat → Nat} {size : Nat}

/-! ### The stack -/

section

variable {xs ys : List SlotType}

/-- Operands that suit are popped alike. -/
theorem pop_mirrors (h : Suited place xs ys) :
    Mirrors (fun a b => (b.1 ≠ .top ∧ a.1.Suits place b.1) ∧ Suited place a.2 b.2)
      (pop xs) (pop ys) := by
  cases h with
  | nil => exact .error _
  | cons hfirst hrest => exact .ok ⟨hfirst, hrest⟩

theorem popWhere_mirrors {p : SlotType → Bool}
    (hp : ∀ {t u}, t.Suits place u → p u = true → p t = true) (h : Suited place xs ys) :
    Mirrors (fun a b => (b.1 ≠ .top ∧ a.1.Suits place b.1) ∧ Suited place a.2 b.2)
      (popWhere p xs) (popWhere p ys) := by
  refine (pop_mirrors h).bind fun a b hab => ?_
  exact .guarded (hp hab.1.2) (.ok hab)

/-- Numbers of certain kinds are popped alike. -/
theorem popExactly_mirrors {wanted : List SlotType}
    (hwanted : ∀ t ∈ wanted, t ≠ .top ∧ t.isReference = false) (h : Suited place xs ys) :
    Mirrors (Suited place) (popExactly wanted xs) (popExactly wanted ys) := by
  induction wanted generalizing xs ys with
  | nil => exact .ok h
  | cons t wanted ih =>
    obtain ⟨⟨htop, href⟩, hrest⟩ := List.forall_mem_cons.mp hwanted
    refine (popWhere_mirrors (fun {s u} hsu hu => ?_) h).bind fun a b hab => ih hrest hab.2
    obtain rfl := of_decide_eq_true hu
    exact decide_eq_true (hsu.eq_of_number htop href)

/-- What suits a value of a type is a value of the type. -/
theorem fits_field {t u : SlotType} (htu : t.Suits place u) (type : FieldType)
    (hu : u.fits (.ofField type) = true) : t.fits (.ofField type) = true := by
  refine htu.fits ?_ hu
  match type with
  | .base .float | .base .long | .base .double | .base .boolean | .base .byte | .base .char
  | .base .short | .base .int | .ref _ => rfl

/-- Arguments are popped alike. -/
theorem popFitting_mirrors (parameters : List FieldType) (h : Suited place xs ys) :
    Mirrors (Suited place) (popFitting parameters xs) (popFitting parameters ys) := by
  induction parameters generalizing xs ys with
  | nil => exact .ok h
  | cons type parameters ih =>
    exact (popWhere_mirrors (fun htu => fits_field htu type) h).bind fun a b hab => ih hab.2

theorem popNarrow_mirrors (h : Suited place xs ys) :
    Mirrors (fun a b => (b.1 ≠ .top ∧ a.1.Suits place b.1) ∧ Suited place a.2 b.2)
      (popNarrow xs) (popNarrow ys) := by
  refine (pop_mirrors h).bind ?_
  rintro ⟨t, xs'⟩ ⟨u, ys'⟩ ⟨⟨htop, htu⟩, hrest⟩
  simp only [htu.width_eq htop]
  split
  · exact .ok ⟨⟨htop, htu⟩, hrest⟩
  · exact .error _

/-- Words are popped alike. -/
theorem popWords_mirrors (words : Nat) (h : Suited place xs ys) :
    Mirrors (fun a b => Suited place a.1 b.1 ∧ Suited place a.2 b.2)
      (popWords words xs) (popWords words ys) := by
  match words with
  | 0 => exact .ok ⟨.nil, h⟩
  | 1 => exact (popNarrow_mirrors h).bind fun a b hab => .ok ⟨.cons hab.1 .nil, hab.2⟩
  | words + 2 =>
    refine (pop_mirrors h).bind ?_
    rintro ⟨t, xs'⟩ ⟨u, ys'⟩ ⟨hfirst, hrest⟩
    simp only [hfirst.2.width_eq hfirst.1]
    split
    · exact (popNarrow_mirrors hrest).bind fun a b hab =>
        .ok ⟨.cons hfirst (.cons hab.1 .nil), hab.2⟩
    · exact .ok ⟨.cons hfirst .nil, hrest⟩

/-- Arrays that suit; null suits for every array. -/
def ArraySuits (a b : Option RefType) : Prop := ∀ t ∈ a, ∃ u ∈ b, t.Suits u

/-- Arrays are popped alike. -/
theorem popArray_mirrors (h : Suited place xs ys) :
    Mirrors (fun a b => ArraySuits a.1 b.1 ∧ Suited place a.2 b.2) (popArray xs) (popArray ys) := by
  refine (pop_mirrors h).bind ?_
  rintro ⟨t, xs'⟩ ⟨u, ys'⟩ ⟨⟨htop, htu⟩, hrest⟩
  cases htu with
  | top => exact absurd rfl htop
  | null type =>
    cases htype : type.isArray with
    | true =>
      simp only [htype, if_true]
      exact .ok ⟨nofun, hrest⟩
    | false =>
      simp only [htype]
      exact .error _
  | object htype =>
    refine .guarded htype.isArray (.ok ⟨?_, hrest⟩)
    rintro _ ⟨⟩
    exact ⟨_, rfl, htype⟩
  | uninitialized => exact .error _
  | @same t ht =>
    cases t with
    | null => exact .ok ⟨nofun, hrest⟩
    | object type =>
      refine .guarded id (.ok ⟨?_, hrest⟩)
      rintro _ ⟨⟩
      exact ⟨_, rfl, .refl _⟩
    | _ => exact .error _

end

/-! ### Locals -/

/-- A store does not change how many variables there are. -/
theorem storeLocal_length {locals locals' : List SlotType} {slot : Nat} {t : SlotType}
    (h : storeLocal locals slot t = .ok locals') : locals'.length = locals.length := by
  simp only [storeLocal] at h
  split at h
  · cases h
  · cases h
    rw [List.length_set]
    split <;> simp only [List.length_set, ruinBefore_length]

/-- What is in the locals after a store. -/
theorem storeLocal_get? {locals locals' : List SlotType} {slot : Nat} {t : SlotType}
    (h : storeLocal locals slot t = .ok locals') (k : Nat) :
    slot + t.width ≤ locals.length ∧ locals'[k]? =
      if k = slot then some t
      else if t.width = 2 ∧ k = slot + 1 then some .top
      else if k + 1 = slot ∧ locals[k]?.map SlotType.width = some 2 then some .top
      else locals[k]? := by
  simp only [storeLocal] at h
  split at h
  · cases h
  rename_i hfits
  cases h
  refine ⟨Nat.not_lt.mp hfits, ?_⟩
  have hruin : (ruinBefore locals slot)[k]? =
      if k + 1 = slot ∧ locals[k]?.map SlotType.width = some 2 then some .top else locals[k]? := by
    simp only [ruinBefore, Bool.and_eq_true, decide_eq_true_eq]
    split
    · rename_i hslot
      obtain ⟨u, hu, -⟩ := Option.map_eq_some_iff.mp hslot.2
      have hlt := (List.getElem?_eq_some_iff.mp hu).1
      by_cases hk : k + 1 = slot
      · subst hk
        rw [if_pos ⟨rfl, hslot.2⟩]
        exact List.getElem?_set_self hlt
      · rw [if_neg fun h => hk h.1]
        exact List.getElem?_set_ne (by omega)
    · rename_i hslot
      rw [if_neg]
      rintro ⟨rfl, hwide⟩
      exact hslot ⟨Nat.succ_pos k, hwide⟩
  have hlength := ruinBefore_length locals slot
  have hwidth := t.width_pos
  generalize ruinBefore locals slot = ruined at hruin hlength
  by_cases hself : k = slot
  · subst hself
    rw [if_pos rfl, List.getElem?_set_self]
    split
    · rw [List.length_set]
      omega
    · omega
  · rw [if_neg hself, List.getElem?_set_ne (Ne.symm hself)]
    by_cases hwide : t.width = 2
    · rw [if_pos hwide]
      by_cases hsecond : k = slot + 1
      · subst hsecond
        rw [if_pos ⟨hwide, rfl⟩, List.getElem?_set_self (by omega)]
      · rw [if_neg fun h => hsecond h.2, List.getElem?_set_ne (Ne.symm hsecond), hruin]
    · rw [if_neg hwide, if_neg fun h => hwide h.1, hruin]

/-- Stores of what suits keep variables suiting. -/
theorem LocalsSuit.storeLocal {xs ys : List SlotType} (h : LocalsSuit place size xs ys)
    {t u : SlotType} (hu : u ≠ .top) (htu : t.Suits place u) {slot : Nat}
    (hroom : slot + u.width ≤ size) :
    Mirrors (LocalsSuit place size) (storeLocal xs slot t) (storeLocal ys slot u) := by
  intro ys' hys'
  have hwidth := htu.width_eq hu
  have hlength := h.length
  obtain ⟨xs', hxs'⟩ : ∃ xs', Frame.storeLocal xs slot t = .ok xs' := by
    simp only [Frame.storeLocal, hwidth]
    rw [if_neg (by omega)]
    exact ⟨_, rfl⟩
  refine ⟨xs', hxs', hlength.trans_eq (storeLocal_length hxs').symm, fun k v hk hv => ?_⟩
  rw [(storeLocal_get? hys' k).2] at hv
  rw [(storeLocal_get? hxs' k).2, hwidth]
  split at hv
  · rename_i hself
    cases hv
    exact ⟨t, if_pos hself, htu⟩
  rename_i hself
  rw [if_neg hself]
  split at hv
  · rename_i hsecond
    cases hv
    exact ⟨.top, if_pos hsecond, .top _⟩
  rename_i hsecond
  rw [if_neg hsecond]
  split at hv
  · -- the entry before is given up, whatever it is in the other frame
    cases hv
    split
    · exact ⟨.top, rfl, .top _⟩
    · rename_i hruined _
      obtain ⟨w, hw, -⟩ := Option.map_eq_some_iff.mp hruined.2
      obtain ⟨s, hs, -⟩ := h.entry k w hk hw
      exact ⟨s, hs, .top s⟩
  · rename_i hkept
    obtain ⟨s, hs, hsv⟩ := h.entry k v hk hv
    split
    · rename_i hruined
      by_cases htop : v = .top
      · subst htop
        exact ⟨.top, rfl, .top _⟩
      · refine absurd ⟨hruined.1, ?_⟩ hkept
        have hwide := hruined.2
        rw [hs, Option.map_some, hsv.width_eq htop] at hwide
        rw [hv, Option.map_some, hwide]
    · exact ⟨s, hs, hsv⟩

/-! ### Instructions -/

/-- Types of numbers. -/
theorem fixedEffect_numbers {i : Instruction} {taken put : List SlotType}
    (h : i.fixedEffect? = some (taken, put)) :
    (∀ t ∈ taken, t ≠ .top ∧ t.isReference = false) ∧
      ∀ t ∈ put, t ≠ .top ∧ ∀ c index, t ≠ .uninitialized c index := by
  have hfield : ∀ (type : FieldType) c index, SlotType.ofField type ≠ .uninitialized c index := by
    intro type c index
    match type with
    | .base .float | .base .long | .base .double | .base .boolean | .base .byte | .base .char
    | .base .short | .base .int | .ref _ => nofun
  cases i <;> cases h
  case getStatic field =>
    exact ⟨nofun, List.forall_mem_singleton.mpr ⟨ofField_ne_top field.type, hfield field.type⟩⟩
  case pushConstant c =>
    exact ⟨nofun, List.forall_mem_singleton.mpr (by cases c <;> exact ⟨nofun, nofun⟩)⟩
  case arith kind | neg kind | compareFloat kind _ =>
    cases kind <;> simp [NumericKind.slot, FloatKind.slot, SlotType.isReference]
  case shift kind | bitwise kind =>
    cases kind <;> simp [IntegralKind.slot, SlotType.isReference]
  case convert c => cases c <;> simp [Conversion.slots, SlotType.isReference]
  all_goals simp [SlotType.isReference]

variable {f g : Frame} {context : MethodContext}

/-- Frames with other operands suit if these do. -/
theorem Suits.withStack {xs ys : List SlotType} (h : f.Suits place size g) (hstack : Suited place xs ys) :
    Suits place size { f with stack := xs } { g with stack := ys } := ⟨h.locals, hstack⟩

/-- Types from declarations are the same everywhere. -/
theorem suits_field (type : FieldType) :
    SlotType.ofField type ≠ .top ∧ (SlotType.ofField type).Suits place (.ofField type) := by
  refine ⟨ofField_ne_top type, .same fun c index => ?_⟩
  match type with
  | .base .float | .base .long | .base .double | .base .boolean | .base .byte | .base .char
  | .base .short | .base .int | .ref _ => nofun

/-- Operands with a result on top suit. -/
theorem suited_result (result : Option FieldType) {xs ys : List SlotType} (h : Suited place xs ys) :
    Suited place (pushResult result xs) (pushResult result ys) := by
  cases result with
  | none => exact h
  | some type => exact .cons (suits_field type) h

/-- What suits a value of a kind is of the kind. -/
theorem holdsKind_suits {kind : ValueKind} {t u : SlotType} (htu : t.Suits place u)
    (hu : holdsKind kind u = true) : holdsKind kind t = true := by
  have hnumber : ∀ wanted : SlotType, wanted ≠ .top → wanted.isReference = false →
      decide (u = wanted) = true → decide (t = wanted) = true := by
    intro wanted htop href heq
    obtain rfl := of_decide_eq_true heq
    exact decide_eq_true (htu.eq_of_number htop href)
  cases kind with
  | object => exact htu.isReference hu
  | int => exact hnumber .integer nofun rfl hu
  | long => exact hnumber .long nofun rfl hu
  | float => exact hnumber .float nofun rfl hu
  | double => exact hnumber .double nofun rfl hu

/-- What suits an element is one. -/
theorem fitsElement_suits {element : ElementKind} {t u : SlotType} (htu : t.Suits place u)
    (hu : fitsElement element u = true) : fitsElement element t = true := by
  have hnumber : ∀ wanted : SlotType, wanted ≠ .top → wanted.isReference = false →
      decide (u = wanted) = true → decide (t = wanted) = true := by
    intro wanted htop href heq
    obtain rfl := of_decide_eq_true heq
    exact decide_eq_true (htu.eq_of_number htop href)
  cases element with
  | object => exact htu.fits rfl hu
  | int | byte | char | short => exact hnumber .integer nofun rfl hu
  | long => exact hnumber .long nofun rfl hu
  | float => exact hnumber .float nofun rfl hu
  | double => exact hnumber .double nofun rfl hu

theorem holdsKind_width {kind : ValueKind} {t : SlotType} (h : holdsKind kind t = true) :
    t.width = kind.width := by
  cases kind with
  | object => cases t <;> first | rfl | cases h
  | _ => rw [of_decide_eq_true h]; rfl

/-- A variable is read alike. -/
theorem local_mirrors (h : f.Suits place size g) {slot : Nat} (hroom : slot < size) :
    Mirrors (SlotType.Suits place) (f.local? slot) (g.local? slot) := by
  intro u hu
  simp only [local?] at hu ⊢
  split at hu
  · cases hu
    obtain ⟨t, ht, htu⟩ := h.locals.entry slot u hroom ‹_›
    exact ⟨t, by rw [ht], htu⟩
  · cases hu

/-- A load is mirrored. -/
theorem load_mirrors (h : f.Suits place size g) {kind : ValueKind} {slot : Nat}
    (hroom : slot + kind.width ≤ size) :
    Mirrors (Suits place size) (f.load kind slot) (g.load kind slot) := by
  have hpos : 0 < kind.width := by cases kind <;> exact Nat.zero_lt_succ _
  refine (local_mirrors h (by omega)).bind fun t u htu => ?_
  by_cases hholds : holdsKind kind u = true
  · rw [if_pos hholds, if_pos (holdsKind_suits htu hholds)]
    exact .ok (h.withStack (.cons ⟨holdsKind_ne_top hholds, htu⟩ h.stack))
  · rw [if_neg hholds]
    exact .error _

/-- A store is mirrored. -/
theorem store_mirrors (h : f.Suits place size g) {kind : ValueKind} {slot : Nat}
    (hroom : slot + kind.width ≤ size) :
    Mirrors (Suits place size) (f.store kind slot) (g.store kind slot) := by
  intro g' hg'
  obtain ⟨⟨u, ys⟩, hpop, hstore⟩ := Except.bind_ok.mp hg'
  obtain ⟨-, hholds⟩ := popWhere_eq hpop
  obtain ⟨⟨t, xs⟩, hpop', ⟨htop, htu⟩, hrest⟩ := popWhere_mirrors holdsKind_suits h.stack _ hpop
  have hwidth : u.width = kind.width := holdsKind_width hholds
  have hstored : Mirrors (Suits place size)
      (do return { locals := ← storeLocal f.locals slot t, stack := xs } : Except FrameError Frame)
      (do return { locals := ← storeLocal g.locals slot u, stack := ys }) :=
    (h.locals.storeLocal htop htu (hwidth ▸ hroom)).bind fun _ _ hlocals => .ok ⟨hlocals, hrest⟩
  obtain ⟨f', hf', hsuits⟩ := hstored g' hstore
  exact ⟨f', Except.bind_ok.mpr ⟨_, hpop', hf'⟩, hsuits⟩

theorem suited_integer : ∀ t ∈ [SlotType.integer], t ≠ .top ∧ t.isReference = false := by
  simp [SlotType.isReference]

/-- A load of an element is mirrored. -/
theorem arrayLoad_mirrors (h : f.Suits place size g) (element : ElementKind) :
    Mirrors (Suits place size) (f.arrayLoad element) (g.arrayLoad element) := by
  refine (popExactly_mirrors suited_integer h.stack).bind fun xs ys hstack => ?_
  refine (popArray_mirrors hstack).bind ?_
  rintro ⟨a, xs'⟩ ⟨b, ys'⟩ ⟨harray, hrest⟩
  have hnumber : ∀ t, element.slot? = some t → t ≠ .top ∧ SlotType.Suits place t t := by
    intro t ht
    cases element <;> cases ht <;> exact ⟨nofun, .same nofun⟩
  cases hslot : element.slot? with
  | some t => exact .ok (h.withStack (.cons (hnumber t hslot) hrest))
  | none =>
    cases b with
    | none =>
      cases a with
      | none => exact .ok (h.withStack (.cons ⟨nofun, .same nofun⟩ hrest))
      | some type =>
        obtain ⟨_, hnone, -⟩ := harray type rfl
        cases hnone
    | some type =>
      simp only
      cases helement : type.element? with
      | none => exact .error _
      | some field =>
        cases field with
        | base => exact .error _
        | ref inner =>
          cases a with
          | none => exact .ok (h.withStack (.cons ⟨nofun, .null inner⟩ hrest))
          | some type' =>
            obtain ⟨_, ⟨⟩, hsuits⟩ := harray type' rfl
            obtain ⟨inner', hinner, hsuits⟩ := hsuits.element? helement
            simp only [hinner]
            exact .ok (h.withStack (.cons ⟨nofun, .object hsuits⟩ hrest))

/-- A store into an array is mirrored. -/
theorem arrayStore_mirrors (h : f.Suits place size g) (element : ElementKind) :
    Mirrors (Suits place size) (f.arrayStore element) (g.arrayStore element) := by
  refine (popWhere_mirrors fitsElement_suits h.stack).bind ?_
  rintro ⟨t, xs⟩ ⟨u, ys⟩ ⟨-, hstack⟩
  refine (popExactly_mirrors suited_integer hstack).bind fun xs ys hstack => ?_
  exact (popArray_mirrors hstack).bind fun _ _ hrest => .ok (h.withStack hrest.2)

/-- Rearranging the stack is mirrored. -/
theorem rearrange_mirrors (h : f.Suits place size g) (op : StackOp) :
    Mirrors (Suits place size) (f.rearrange op) (g.rearrange op) := by
  simp only [rearrange]
  cases op.copy? with
  | some counts =>
    obtain ⟨count, under⟩ := counts
    refine (popWords_mirrors count h.stack).bind ?_
    rintro ⟨copied, xs⟩ ⟨copied', ys⟩ ⟨hcopied, hstack⟩
    refine (popWords_mirrors under hstack).bind ?_
    rintro ⟨between, xs⟩ ⟨between', ys⟩ ⟨hbetween, hrest⟩
    exact .ok (h.withStack
      (List.rel_append (List.rel_append (List.rel_append hcopied hbetween) hcopied) hrest))
  | none =>
    cases op with
    | pop => exact (popWords_mirrors 1 h.stack).bind fun _ _ hab => .ok (h.withStack hab.2)
    | pop2 => exact (popWords_mirrors 2 h.stack).bind fun _ _ hab => .ok (h.withStack hab.2)
    | _ =>
      refine (popNarrow_mirrors h.stack).bind ?_
      rintro ⟨t, xs⟩ ⟨t', ys⟩ ⟨ht, hstack⟩
      refine (popNarrow_mirrors hstack).bind ?_
      rintro ⟨u, xs⟩ ⟨u', ys⟩ ⟨hu, hrest⟩
      exact .ok (h.withStack (.cons hu (.cons ht hrest)))

/-- Initialized objects take the place of what was not initialized, in both frames at once. -/
theorem replaceAll_suits (hplace : Function.Injective place) (h : f.Suits place size g)
    {old old' : SlotType} {name : ClassName} (hold : old'.Suits place old)
    (huninitialized : old.isUninitialized = true) :
    Suits place size (f.replaceAll old' (.ofClass name)) (g.replaceAll old (.ofClass name)) := by
  have hentry : ∀ {t u : SlotType}, t.Suits place u →
      SlotType.Suits place (if t = old' then .ofClass name else t)
        (if u = old then .ofClass name else u) := by
    intro t u htu
    -- places are told apart, so the replaced type there is the replaced type here
    by_cases hu : u = old
    · subst hu
      have ht : t = old' := by
        cases hold with
        | top | null | object => cases huninitialized
        | uninitialized c index =>
          cases htu with
          | uninitialized => rfl
          | same hne => exact absurd rfl (hne c index)
        | same hne =>
          cases htu with
          | top | null | object => cases huninitialized
          | uninitialized c index => exact absurd rfl (hne c index)
          | same => rfl
      rw [if_pos ht, if_pos rfl]
      exact .same fun _ _ h => by cases h
    · rw [if_neg hu]
      split
      · -- what is initialized here is unusable there
        rename_i ht
        subst ht
        cases hold with
        | top | null | object => cases huninitialized
        | uninitialized c index =>
          generalize heq : place index = k at htu
          cases htu with
          | top => exact .top _
          | uninitialized c' index' => exact absurd (by rw [hplace heq]) hu
          | same hne => exact absurd rfl (hne c k)
        | same hne =>
          cases htu with
          | top => exact .top _
          | same => exact absurd rfl hu
          | uninitialized c index => exact absurd rfl (hne c (place index))
          | _ => cases huninitialized
      · exact htu
  refine ⟨⟨?_, fun k u hk hu => ?_⟩, ?_⟩
  · rw [replaceAll, List.length_map]
    exact h.locals.length
  · simp only [replaceAll, List.getElem?_map, Option.map_eq_some_iff] at hu ⊢
    obtain ⟨u', hu', rfl⟩ := hu
    obtain ⟨t, ht, htu⟩ := h.locals.entry k u' hk hu'
    exact ⟨_, ⟨t, ht, rfl⟩, hentry htu⟩
  · refine List.forall₂_map_left_iff.mpr (List.forall₂_map_right_iff.mpr ?_)
    refine h.stack.imp fun t u hentries => ⟨?_, hentry hentries.2⟩
    split
    · intro h
      cases h
    · exact hentries.1

/-- A call is mirrored, if different instructions are put at different places. -/
theorem invoke_mirrors (hplace : Function.Injective place) (h : f.Suits place size g) (kind : CallKind)
    (m : MethodRef) :
    Mirrors (Suits place size) (f.invoke context kind m) (g.invoke context kind m) := by
  refine (popFitting_mirrors _ h.stack).bind fun xs ys hstack => ?_
  split
  · refine (pop_mirrors hstack).bind ?_
    rintro ⟨t, xs⟩ ⟨u, ys⟩ ⟨⟨htop, htu⟩, hrest⟩
    have hreplaced : ∀ name, u.isUninitialized = true →
        Mirrors (Suits place size)
          (if m.descriptor.result.isSome = true then (throw .invalidType : Except FrameError Frame)
            else pure (replaceAll { f with stack := xs } t (.ofClass name)))
          (if m.descriptor.result.isSome = true then (throw .invalidType : Except FrameError Frame)
            else pure (replaceAll { g with stack := ys } u (.ofClass name))) := by
      intro name hu
      split
      · exact .error _
      · exact .ok (replaceAll_suits hplace (h.withStack hrest) htu hu)
    cases htu with
    | top => exact absurd rfl htop
    | null | object => exact .error _
    | uninitialized c index => exact hreplaced c rfl
    | @same t hne =>
      cases t with
      | uninitializedThis => exact hreplaced _ rfl
      | uninitialized c index => exact absurd rfl (hne c index)
      | _ => exact .error _
  · split
    · exact .ok (h.withStack (suited_result _ hstack))
    · refine (popWhere_mirrors (fun htu => htu.fits rfl) hstack).bind ?_
      rintro ⟨t, xs⟩ ⟨u, ys⟩ ⟨-, hrest⟩
      exact .ok (h.withStack (suited_result _ hrest))

/-- Returning a value is mirrored. -/
theorem returnValue_mirrors (h : f.Suits place size g) (kind : ValueKind) :
    Mirrors (Suits place size) (f.returnValue context kind) (g.returnValue context kind) := by
  have hnumber : ∀ t, kind.slot? = some t → ∀ u ∈ [t], u ≠ .top ∧ u.isReference = false := by
    intro t ht
    cases kind <;> cases ht <;> simp [SlotType.isReference]
  simp only [returnValue]
  cases hkind : kind.slot? with
  | some t =>
    refine (popExactly_mirrors (hnumber t hkind) h.stack).bind fun xs ys hstack => ?_
    exact .guarded id (.ok (h.withStack hstack))
  | none =>
    refine (pop_mirrors h.stack).bind ?_
    rintro ⟨t, xs⟩ ⟨u, ys⟩ ⟨⟨-, htu⟩, hrest⟩
    cases context.result with
    | none => exact .error _
    | some type =>
      cases type with
      | base => exact .error _
      | ref type => exact .guarded (htu.fits rfl) (.ok (h.withStack hrest))

/-- **Steps.** An instruction that accepts a frame accepts every frame that suits it. Objects that it
makes are known by the place of the instruction. -/
theorem Suits.step (hplace : Function.Injective place) (h : f.Suits place size g) {i : Instruction}
    {index index' : Nat} (hnew : ∀ name, i = .new name → index = place index')
    (hextent : i.localExtent ≤ size) :
    Mirrors (Suits place size) (f.step context index i) (g.step context index' i) := by
  unfold Frame.step
  cases hfixed : i.fixedEffect? with
  | some effect =>
    obtain ⟨taken, put⟩ := effect
    obtain ⟨htaken, hput⟩ := fixedEffect_numbers hfixed
    refine (popExactly_mirrors htaken h.stack).bind fun xs ys hstack => .ok (h.withStack ?_)
    exact List.rel_append (List.forall₂_same.mpr fun t ht => ⟨(hput t ht).1, .same (hput t ht).2⟩)
      hstack
  | none =>
    -- most of the others begin by taking a reference
    have hreference : Mirrors
        (fun a b => (b.1 ≠ .top ∧ a.1.Suits place b.1) ∧ Suited place a.2 b.2)
        (popWhere SlotType.isReference f.stack) (popWhere SlotType.isReference g.stack) :=
      popWhere_mirrors SlotType.Suits.isReference h.stack
    cases i with
    | load kind slot => exact load_mirrors h hextent
    | store kind slot => exact store_mirrors h hextent
    | arrayLoad element => exact arrayLoad_mirrors h element
    | arrayStore element => exact arrayStore_mirrors h element
    | stack op => exact rearrange_mirrors h op
    | increment slot delta =>
      refine (local_mirrors h hextent).bind fun t u htu => ?_
      refine .guarded (fun hu => ?_) (.ok h)
      subst hu
      exact htu.eq_of_number nofun rfl
    | putStatic field => exact (popFitting_mirrors _ h.stack).bind fun _ _ hs => .ok (h.withStack hs)
    | getField field =>
      exact hreference.bind fun _ _ hs => .ok (h.withStack (.cons (suits_field field.type) hs.2))
    | putField field =>
      refine (popFitting_mirrors _ h.stack).bind fun _ _ hs => ?_
      exact (popWhere_mirrors SlotType.Suits.isReference hs).bind fun _ _ hs => .ok (h.withStack hs.2)
    | invoke kind m => exact invoke_mirrors hplace h kind m
    | invokeDynamic site =>
      exact (popFitting_mirrors _ h.stack).bind fun _ _ hs =>
        .ok (h.withStack (suited_result _ hs))
    | new name =>
      refine .ok (h.withStack (.cons ⟨nofun, ?_⟩ h.stack))
      rw [hnew name rfl]
      exact .uninitialized name index'
    | newMultiArray type dimensions =>
      by_cases hinvalid : (decide (dimensions = 0) || !type.isArray) = true
      · simp only [if_pos hinvalid]
        exact .error _
      · simp only [if_neg hinvalid]
        refine (popExactly_mirrors (fun t ht => ?_) h.stack).bind fun _ _ hs =>
          .ok (h.withStack (.cons ⟨nofun, .same nofun⟩ hs))
        rw [List.eq_of_mem_replicate ht]
        exact ⟨nofun, rfl⟩
    | arrayLength =>
      exact (popArray_mirrors h.stack).bind fun _ _ hs =>
        .ok (h.withStack (.cons ⟨nofun, .same nofun⟩ hs.2))
    | checkCast type =>
      exact hreference.bind fun _ _ hs => .ok (h.withStack (.cons ⟨nofun, .same nofun⟩ hs.2))
    | instanceOf type =>
      exact hreference.bind fun _ _ hs => .ok (h.withStack (.cons ⟨nofun, .same nofun⟩ hs.2))
    | monitorEnter | monitorExit | ifNull =>
      exact hreference.bind fun _ _ hs => .ok (h.withStack hs.2)
    | ifRef =>
      refine (pop_mirrors h.stack).bind ?_
      rintro ⟨t, xs⟩ ⟨u, ys⟩ ⟨⟨-, htu⟩, hstack⟩
      refine (pop_mirrors hstack).bind ?_
      rintro ⟨t', xs'⟩ ⟨u', ys'⟩ ⟨⟨-, htu'⟩, hstack⟩
      refine .guarded (fun hboth => ?_) (.ok (h.withStack hstack))
      obtain ⟨hu, hu'⟩ := Bool.and_eq_true_iff.mp hboth
      exact Bool.and_eq_true_iff.mpr ⟨htu.isReference hu, htu'.isReference hu'⟩
    | returnValue kind => exact returnValue_mirrors h kind
    | returnVoid => exact .guarded id (.ok h)
    | throw => exact hreference.bind fun _ _ hs => .ok (h.withStack (.cons hs.1 .nil))
    | _ => exact .error _

/-! ### What instructions do to locals -/

/-- How an instruction can change locals. -/
inductive Changes (i : Instruction) (xs : List SlotType) : List SlotType → Prop
  /-- nothing has changed -/
  | kept : Changes i xs xs
  /-- a value was stored -/
  | stored {kind : ValueKind} {slot : Nat} {t : SlotType} {ys : List SlotType}
    (hi : i = .store kind slot) (hkind : holdsKind kind t = true)
    (hok : storeLocal xs slot t = .ok ys) : Changes i xs ys
  /-- an instance was initialized, wherever it is -/
  | initialized {old new : SlotType} (hold : old.isUninitialized = true) :
    Changes i xs (xs.map fun t => if t = old then new else t)

/-- What comes last decides. -/
theorem Changes.bind {α : Type} {xs : List SlotType} {i : Instruction} {x : Except FrameError α}
    {y : α → Except FrameError Frame} (hy : ∀ a f', y a = .ok f' → Changes i xs f'.locals) :
    ∀ f', (x >>= y) = .ok f' → Changes i xs f'.locals := by
  intro f' hok
  obtain ⟨a, -, hok⟩ := Except.bind_ok.mp hok
  exact hy a f' hok

theorem Changes.guarded {xs : List SlotType} {i : Instruction} {p : Prop} [Decidable p]
    {e : FrameError} (hf : Changes i xs f.locals) :
    ∀ f', (if p then .ok f else .error e) = Except.ok f' → Changes i xs f'.locals := by
  intro f' hok
  split at hok <;> cases hok
  exact hf

theorem Changes.ok {xs : List SlotType} {i : Instruction} (hf : Changes i xs f.locals) :
    ∀ f', (.ok f : Except FrameError Frame) = .ok f' → Changes i xs f'.locals := by
  rintro _ ⟨⟩
  exact hf

/-- A call changes no variable, unless it initializes an instance. -/
theorem invoke_changes {kind : CallKind} {m : MethodRef} {i : Instruction} :
    ∀ f', f.invoke context kind m = .ok f' → Changes i f.locals f'.locals := by
  refine .bind fun stack => ?_
  split
  · refine .bind fun ⟨t, rest⟩ f' hok => ?_
    simp only at hok
    split at hok
    · obtain ⟨after, hafter, hok⟩ := Except.bind_ok.mp hok
      cases hafter
      split at hok <;> cases hok
      exact .initialized rfl
    · obtain ⟨after, hafter, hok⟩ := Except.bind_ok.mp hok
      cases hafter
      split at hok <;> cases hok
      exact .initialized rfl
    · cases hok
  · split
    · exact .ok .kept
    · exact .bind fun _ => .ok .kept

/-- **What an instruction does to locals.** -/
theorem step_changes {index : Nat} {i : Instruction} (hok : f.step context index i = .ok f') :
    Changes i f.locals f'.locals := by
  suffices hall : ∀ f', f.step context index i = .ok f' → Changes i f.locals f'.locals from hall f' hok
  unfold Frame.step
  -- only stores, initializations and what ruins a variable change the variables
  cases hfixed : i.fixedEffect? with
  | some effect => exact .bind fun _ => .ok .kept
  | none =>
    cases i with
    | load kind slot => exact .bind fun _ => .guarded .kept
    | store kind slot =>
      intro f' hok
      obtain ⟨⟨t, stack⟩, hpop, hok⟩ := Except.bind_ok.mp hok
      obtain ⟨locals, hstore, hok⟩ := Except.bind_ok.mp hok
      cases hok
      exact .stored rfl (popWhere_eq hpop).2 hstore
    | arrayLoad element =>
      refine .bind fun _ => .bind fun popped => ?_
      obtain ⟨array, stack⟩ := popped
      simp only
      split
      · exact .ok .kept
      · exact .ok .kept
      · split
        · exact .ok .kept
        · intro f' hok
          cases hok
    | arrayStore element => exact .bind fun _ => .bind fun _ => .bind fun _ => .ok .kept
    | stack op =>
      simp only [rearrange]
      split
      · exact .bind fun _ => .bind fun _ => .ok .kept
      · split
        · exact .bind fun _ => .ok .kept
        · exact .bind fun _ => .ok .kept
        · exact .bind fun _ => .bind fun _ => .ok .kept
    | increment slot delta => exact .bind fun _ => .guarded .kept
    | putStatic field => exact .bind fun _ => .ok .kept
    | getField field => exact .bind fun _ => .ok .kept
    | putField field => exact .bind fun _ => .bind fun _ => .ok .kept
    | invoke kind m => exact invoke_changes
    | invokeDynamic site => exact .bind fun _ => .ok .kept
    | new name => exact .ok .kept
    | newMultiArray type dimensions =>
      simp only
      split
      · intro f' hok
        cases hok
      · exact .bind fun _ => .ok .kept
    | arrayLength => exact .bind fun _ => .ok .kept
    | checkCast type => exact .bind fun _ => .ok .kept
    | instanceOf type => exact .bind fun _ => .ok .kept
    | monitorEnter | monitorExit | ifNull => exact .bind fun _ => .ok .kept
    | ifRef => exact .bind fun _ => .bind fun _ => .guarded .kept
    | returnValue kind =>
      simp only [returnValue]
      split
      · exact .bind fun _ => .guarded .kept
      · refine .bind fun _ => ?_
        split
        · exact .guarded .kept
        · intro f' hok
          cases hok
    | returnVoid => exact .guarded .kept
    | throw => exact .bind fun _ => .ok .kept
    | _ =>
      intro f' hok
      cases hok

variable {index : Nat} {i : Instruction}

/-- A step does not change how many variables there are. -/
theorem step_length (hok : f.step context index i = .ok f') :
    f'.locals.length = f.locals.length := by
  have hchanges := step_changes hok
  generalize f'.locals = ys at hchanges ⊢
  cases hchanges with
  | kept => rfl
  | stored _ _ hstore => exact storeLocal_length hstore
  | initialized => exact List.length_map _

/-- What an instruction does not name stays, unless it is initialized. -/
theorem step_keeps (hok : f.step context index i = .ok f') {k : Nat} {t : SlotType}
    (hextent : i.localExtent ≤ k) (ht : f.locals[k]? = some t)
    (hinitialized : t.isUninitialized = false) : f'.locals[k]? = some t := by
  have hchanges := step_changes hok
  generalize f'.locals = ys at hchanges ⊢
  cases hchanges with
  | kept => exact ht
  | @stored kind slot u ys hi hkind hstore =>
    subst hi
    have hwidth : u.width = kind.width := holdsKind_width hkind
    have hpos := u.width_pos
    simp only [Instruction.localExtent] at hextent
    rw [(storeLocal_get? hstore k).2, if_neg (by omega), if_neg (by omega), if_neg (by omega)]
    exact ht
  | @initialized old new hold =>
    have hne : t ≠ old := by
      rintro rfl
      rw [hold] at hinitialized
      cases hinitialized
    rw [List.getElem?_map, ht, Option.map_some, if_neg hne]

end Frame

end Resumption
