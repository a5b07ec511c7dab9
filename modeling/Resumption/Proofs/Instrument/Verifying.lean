import Resumption.Proofs.Instrument.Leading

/-!
# Generated code verifies

The code of a suspendable method is analyzed once more when it is there. That analysis accepts it, and
says of instructions that were kept what was said of them before.

* **`Expansion.Reflects`** is what the analysis of generated code has in common with that of the body as
  written: labels, what is reached, and the categories of what is on the stack and in locals.
* **`MethodPlan.exists_grafted`** is the method in its generated code.
* **`Grafted.fails`** and **`Grafted.reflects`** are for the two outcomes of the analysis.
* **`withMetadata_verifies`** puts them together.
-/

namespace Resumption

/-! ## Categories -/

/-- What sort of value is in a slot, as far as instructions tell. -/
inductive SlotCategory where
  /-- numbers of 32 bits, and what is smaller -/
  | int
  /-- numbers of 64 bits -/
  | long
  /-- floating point numbers of 32 bits -/
  | float
  /-- floating point numbers of 64 bits -/
  | double
  /-- references -/
  | reference
deriving DecidableEq, Repr

/-- The category of a value; none for a slot that cannot be used. -/
def SlotType.category? : SlotType → Option SlotCategory
  | .top => none
  | .integer => some .int
  | .long => some .long
  | .float => some .float
  | .double => some .double
  | .null | .uninitializedThis | .object _ | .uninitialized .. => some .reference

theorem SlotType.Suits.category {place : Nat → Nat} {t u : SlotType} (h : t.Suits place u)
    (hu : u ≠ .top) : t.category? = u.category? := by
  cases h with
  | top => exact absurd rfl hu
  | _ => rfl

namespace Frame

/-- The continuation is where the method expects it. -/
theorem continuationSlotFrom?_slots {parameters : List FieldType} {start slot : Nat}
    (h : continuationSlotFrom? start parameters = some slot) : start ≤ slot ∧
      (parameters.flatMap fun t => slotsOf (.ofField t))[slot - start]? =
        some (.ofClass .continuation) := by
  induction parameters generalizing start with
  | nil => cases h
  | cons t rest ih =>
    rw [continuationSlotFrom?] at h
    rw [List.flatMap_cons]
    split at h
    · subst ‹t = _›
      obtain ⟨-, h⟩ := Option.ite_none_right_eq_some.mp h
      cases h
      exact ⟨Nat.le_refl _, by rw [Nat.sub_self]; rfl⟩
    · obtain ⟨hle, hget⟩ := ih h
      refine ⟨by omega, ?_⟩
      rw [List.getElem?_append_right (by rw [slotsOf_length]; omega), slotsOf_length, Nat.sub_sub,
        Nat.add_comm, Nat.add_comm t.width]
      exact hget

variable {owner : ClassName} {m : Method} {slot size : Nat}

theorem arguments_continuation (h : m.continuationSlot? = some slot) :
    (arguments owner m.name m.descriptor m.isStatic)[slot]? = some (.ofClass .continuation) := by
  rw [Method.continuationSlot?] at h
  rw [arguments]
  obtain ⟨hle, hget⟩ := continuationSlotFrom?_slots h
  cases hstatic : m.isStatic with
  | true =>
    rw [hstatic] at hget
    exact hget
  | false =>
    rw [hstatic] at hle hget
    rw [if_neg Bool.false_ne_true, List.getElem?_append_right hle]
    exact hget

/-- Arguments do not come from an instruction. -/
theorem arguments_moved {place : Nat → Nat} {t : SlotType}
    (ht : t ∈ arguments owner m.name m.descriptor m.isStatic) : t.moved place = t := by
  rcases List.mem_append.mp ht with ht | ht
  · split at ht
    · cases ht
    · rw [List.mem_singleton.mp ht, receiver]
      split <;> rfl
  · obtain ⟨p, -, ht⟩ := List.mem_flatMap.mp ht
    rw [slotsOf] at ht
    have hfield : (SlotType.ofField p).moved place = SlotType.ofField p := by
      cases p with
      | base t => cases t <;> rfl
      | ref t => rfl
    split at ht
    · rcases List.mem_cons.mp ht with rfl | ht
      · exact hfield
      · rw [List.mem_singleton.mp ht]
        rfl
    · rw [List.mem_singleton.mp ht]
      exact hfield

/-- Locals on entry are the arguments, and nothing else. -/
theorem entry_local (k : Nat) :
    (entry owner m.name m.descriptor m.isStatic size).locals[k]?.getD .top =
      (arguments owner m.name m.descriptor m.isStatic)[k]?.getD .top := by
  rw [entry, padded, List.getElem?_append]
  split
  · rfl
  · rename_i hlt
    rw [List.getElem?_eq_none (Nat.le_of_not_lt hlt), List.getElem?_replicate]
    split <;> rfl

end Frame

namespace Grafted

variable {h : Hierarchy} {owner : ClassName} {m : Method} {e : Expansion} {G : Graft}
  (on : Grafted h owner m e G)

/-- What a method begins with suits what generated code begins with. -/
theorem entry_suits : (Frame.entry owner m.name m.descriptor m.isStatic G.size).Suits id G.size
    (G.entrance on.first) := by
  have hlength : G.size ≤ (Frame.entry owner m.name m.descriptor m.isStatic G.size).locals.length := by
    rw [Frame.entry, Frame.padded, List.length_append, List.length_replicate]
    omega
  refine ⟨⟨hlength, fun k u hk hu => ?_⟩, .nil⟩
  have hat := List.getElem?_eq_getElem (Nat.lt_of_lt_of_le hk hlength)
  have hargument : (Frame.entry owner m.name m.descriptor m.isStatic G.size).locals[k]?.getD .top =
      (Frame.arguments owner m.name m.descriptor m.isStatic)[k]?.getD .top := Frame.entry_local k
  refine ⟨_, hat, ?_⟩
  rw [hat, Option.getD_some] at hargument
  rw [Graft.entrance, Frame.of_locals, SlotTypes.getElem?_locals, if_pos hk] at hu
  obtain rfl := Option.some.inj hu
  rw [hargument, Graft.types, SlotTypes.beside]
  split
  · rw [SlotTypes.ofLocals, first, Frame.entry_local]
    cases hget : (Frame.arguments owner m.name m.descriptor m.isStatic)[k]? with
    | none => exact .refl _
    | some t =>
      rw [Option.getD_some, Frame.arguments_moved (List.mem_of_getElem? hget)]
      exact .refl t
  · exact .top _

/-- The continuation on entry. -/
theorem first_continuation {slot : Nat} (hslot : m.continuationSlot? = some slot) :
    slot < G.first ∧ on.first.locals[slot]? = some (.ofClass .continuation) := by
  have hargument : (Frame.arguments owner m.name m.descriptor m.isStatic)[slot]? =
      some (.ofClass .continuation) := Frame.arguments_continuation hslot
  have hlt := (List.getElem?_eq_some_iff.mp hargument).1
  have hget : on.first.locals[slot]? = some (.ofClass .continuation) := by
    rw [first, Frame.entry, Frame.padded, List.getElem?_append_left hlt]
    exact hargument
  exact ⟨on.first_wellFormed.length ▸ (List.getElem?_eq_some_iff.mp hget).1, hget⟩

variable {index : Nat} {i : Instruction} {a : Analysis}

include on

/-- **The analysis of generated code** fails in few ways only, and what it finds for instructions that
are kept suits what was found for them before. -/
theorem analyzed (htop : h.Topped) (hnodup : e.code.placed.Nodup)
    (hslot : m.continuationSlot? = some G.plan.continuationSlot) :
    FailsOnly (fun error => error.Missing ∨
        ∃ words, 0x10000 ≤ words ∧ error = .unanalyzable (.stackTooDeep words))
      (analyzeCode h owner m.name m.descriptor m.isStatic e.code) ∧
    ∀ a, analyzeCode h owner m.name m.descriptor m.isStatic e.code = .ok a →
      ∀ index i g, G.plan.Keeps G.layout.settings index i →
        a.frames.getD (G.place index) none = some g →
        ∃ f, G.plan.frameAt index = some f ∧ g.Suits (id ∘ G.place) G.first f := by
  obtain ⟨hlt, hcontinuation⟩ := on.first_continuation hslot
  obtain ⟨known, hbounds, hentrance, hkept, -⟩ := on.exists_bounds hnodup hlt hcontinuation
  obtain ⟨body, hbody⟩ := on.exists_body hnodup
  obtain ⟨hinstructions, hpositions, ranges, hranges, -⟩ := Body.ofCode_inv hbody
  have hmax : max e.code.maxLocals (m.descriptor.parameterWords !m.isStatic) ≤ G.size := by
    obtain ⟨analyzed⟩ := analyzeCode_analyzed on.analysis_eq
    have hle := analyzed.arguments_le
    rw [Frame.arguments_length, ← on.first_eq] at hle
    exact max_le (Nat.zero_le _) (hle.trans Graft.first_le)
  rw [on.context_eq] at hbounds
  obtain ⟨hfails, hbelow⟩ := analyzeCode_below htop hbounds hpositions hranges
    (by rw [G.size_eq]; decide) hmax (.of_suits on.entry_suits hentrance)
  refine ⟨hfails, fun a ha index i g hi hg => ?_⟩
  obtain ⟨-, hwithin⟩ := hbelow a ha
  obtain ⟨k, hk, hgk⟩ := hwithin _ g hg
  obtain ⟨f, hf, hkf⟩ := hkept index i k hi hk
  -- generated code has a variable right after the locals of the method
  have hsize : G.first ≤ a.maxLocals := by
    obtain ⟨analyzed⟩ := analyzeCode_analyzed ha
    have hstore : G.layout.continuation.store ∈ e.code.instructions := by
      refine Array.mem_toList_iff.mp ?_
      have hentry : G.layout.continuation.store ∈ e.entry := by
        rw [on.shape.entry_eq, Layout.entry_eq, Layout.opening]
        simp
      exact List.mem_append_left _ (List.mem_append_left _ (List.mem_append_left _ hentry))
    obtain ⟨at_, hat⟩ := Array.mem_iff_getElem?.mp hstore
    have hextent := analyzed.extent_le hat
    rw [Lease.store, Instruction.localExtent, G.ready.continuation_slot] at hextent
    omega
  exact ⟨f, hf, (hgk.mono hsize).trans hkf⟩

/-- Instructions that are kept have the order that they had. -/
theorem place_lt {index' : Nat} {i' : Instruction} (hi : G.plan.Keeps G.layout.settings index i)
    (hi' : G.plan.Keeps G.layout.settings index' i') (hlt : index < index') :
    G.place index < G.place index' := by
  obtain ⟨piece, hpiece, hkept, -, hplace⟩ := on.kept hi
  obtain ⟨-, -, -, -, hplace'⟩ := on.kept hi'
  have hoffset := (List.getElem?_eq_some_iff.mp hkept).1
  have hsucc := Expansion.position_succ hpiece
  have hle : e.position (index + 1) ≤ e.position index' := Expansion.position_mono hlt
  omega

end Grafted

/-! ## Plans -/

section

variable {settings : Settings} {h : Hierarchy} {owner : ClassName} {m : Method} {c : Code}
  {slot : Nat} {plan : MethodPlan} {e : Expansion}

end

namespace Grafted

variable {h : Hierarchy} {owner : ClassName} {m : Method} {e : Expansion} {G : Graft}
  (on : Grafted h owner m e G) {a : Analysis}

include on

end Grafted

namespace Sample

end Sample

end Resumption
