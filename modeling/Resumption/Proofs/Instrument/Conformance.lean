import Resumption.Instrument.Emit
import Resumption.Proofs.Frame.WellFormed
import Resumption.Proofs.Machine.Effects
import Resumption.Proofs.Machine.Kinds

/-!
# Values that conform to a frame

Saving and restoring rely on a frame saying the truth about an activation: a local or stack value has
the kind that its type says, and an object is an instance of its static type, or null.

* **`Value.Conforms`** is that for one value. It stays true (`Conforms.later`), gives the kind of the
  value (`Conforms.hasKind`), and makes the cast of a restore succeed (`Conforms.checkCast`).
* **`savedLocals_eq`** and **`nullLocals_eq`** say in one go which locals are saved, once the halves
  of wide locals are known to match.
-/

namespace Resumption

/-! ## Kinds -/

/-- Arrays in which values are saved keep them as they are. -/
theorem Value.HasKind.narrowed (v : Value) (kind : ValueKind) : Step.narrowed kind.element v = v := by
  cases kind <;> cases v <;> rfl

/-! ## Conformance -/

/-- Is it a value of the type? Every object that is not null has to be an instance of its static
type; nothing is known of an unusable slot. -/
def Value.Conforms (m : Machine) : SlotType → Value → Prop
  | .top, _ => True
  | .integer, v => v.HasKind .int
  | .long, v => v.HasKind .long
  | .float, v => v.HasKind .float
  | .double, v => v.HasKind .double
  | .null, v => v = .null
  | .object type, v => v = .null ∨ ∃ r, v = .ref r ∧ Run.isInstance r type m = .ok true m
  | .uninitializedThis, v | .uninitialized _ _, v => v.HasKind .object

/-- Do locals and stack conform to the frame? -/
structure Activation.Conforms (m : Machine) (f : Frame) (a : Activation) : Prop where
  /-- variables conform -/
  locals : ∀ (slot : Nat) t, f.locals[slot]? = some t → (a.valueAt slot).Conforms m t
  /-- operands conform -/
  stack : List.Forall₂ (fun t v => v.Conforms m t) f.stack a.stack

/-- Is an object of the first type an instance of the second? -/
def Hierarchy.admits (h : Hierarchy) : (found type : RefType) → Known Bool
  | .object sub, .object super => h.isSubclass sub super
  | found, type => h.isAssignable found type

theorem Run.isInstance_eq {m : Machine} {r : Ref} {o : HeapObject} (ho : m.object? r = some o)
    (type : RefType) : isInstance r type m = liftKnown (m.hierarchy.admits o.type type) m := by
  simp only [isInstance, bind, EStateM.bind, object_of_some ho, get, getThe, MonadStateOf.get,
    EStateM.get]
  cases o.type <;> cases type <;> rfl

/-- Being an instance is about the type of the object and the loaded classes. -/
theorem Run.isInstance_later {m m' : Machine} {r : Ref} {type : RefType} {b : Bool}
    (h : isInstance r type m = .ok b m) (hlater : m.Precedes m') :
    isInstance r type m' = .ok b m' := by
  cases ho : m.object? r with
  | none =>
    simp only [isInstance, object, bind, EStateM.bind, get, getThe, MonadStateOf.get, EStateM.get,
      ho] at h
    cases h
  | some o =>
    obtain ⟨o', ho', hevolves⟩ := hlater.objects r o ho
    rw [isInstance_eq ho] at h
    rw [isInstance_eq ho', hlater.hierarchy, hevolves.type_eq]
    cases hknown : m.hierarchy.admits o.type type with
    | ok c =>
      rw [hknown] at h
      cases h
      rfl
    | error e =>
      rw [hknown] at h
      cases h

namespace Value.Conforms

variable {m m' : Machine} {t : SlotType} {v : Value}

theorem later (h : v.Conforms m t) (hlater : m.Precedes m') : v.Conforms m' t := by
  cases t with
  | object type =>
    rcases h with rfl | ⟨r, rfl, hr⟩
    · exact .inl rfl
    · exact .inr ⟨r, rfl, Run.isInstance_later hr hlater⟩
  | _ => exact h

theorem hasKind {kind : ValueKind} (h : v.Conforms m t) (hkind : ValueKind.ofSlot? t = some kind) :
    v.HasKind kind := by
  cases t with
  | top | null => cases hkind
  | object type =>
    cases hkind
    exact h.imp_right fun ⟨r, hr, _⟩ => ⟨r, hr⟩
  | _ =>
    cases hkind
    exact h

theorem width_eq (h : v.Conforms m t) (ht : t ≠ .top) : v.width = t.width := by
  cases t with
  | top => exact absurd rfl ht
  | null =>
    cases h
    rfl
  | _ => exact (h.hasKind rfl).width_eq

theorem ne_top (h : v.Conforms m t) (ht : t ≠ .top) : v ≠ .top := by
  cases t with
  | top => exact absurd rfl ht
  | null =>
    cases h
    nofun
  | _ => exact (h.hasKind rfl).ne_top

/-- Only null needs no variable. -/
theorem eq_null (h : v.Conforms m t) (hnone : ValueKind.ofSlot? t = none) (ht : t ≠ .top) :
    v = .null := by
  cases t with
  | top => exact absurd rfl ht
  | null => exact h
  | _ => cases hnone

/-- The cast that goes with a saved value succeeds. -/
theorem checkCast {type : RefType} (h : v.Conforms m t) (hcast : castType? t = some type) :
    Run.checkCast v type m = .ok () m := by
  cases t with
  | object u =>
    simp only [castType?] at hcast
    split at hcast
    · cases hcast
    · cases hcast
      rcases h with rfl | ⟨r, rfl, hr⟩
      · rfl
      · simp only [Run.checkCast, bind, EStateM.bind, hr]
        rfl
  | _ => cases hcast

end Value.Conforms

/-! ## The locals that are saved -/

/-- The value to save for a local of a type. -/
def savedLocal? (t : SlotType) (slot : Nat) : Option SavedValue :=
  (ValueKind.ofSlot? t).map fun kind => ⟨kind, slot, castType? t⟩

theorem Frame.HalvesMatch.tail {t : SlotType} {locals : List SlotType}
    (h : HalvesMatch (t :: locals)) : HalvesMatch locals := fun i u hi hu =>
  h (i + 1) u (by rw [List.getElem?_cons_succ]; exact hi) hu

theorem Frame.HalvesMatch.head {t : SlotType} {locals : List SlotType}
    (h : HalvesMatch (t :: locals)) (hwide : t.width = 2) : ∃ rest, locals = .top :: rest := by
  have hnext := h 0 t rfl hwide
  cases locals with
  | nil => cases hnext
  | cons u locals =>
    cases hnext
    exact ⟨locals, rfl⟩

theorem SlotType.width_eq (t : SlotType) : t.width = 1 ∨ t.width = 2 := by
  cases t <;> simp [SlotType.width]

/-- A scan that skips the second half of a wide local comes to the same as one that does not, if it
makes nothing of an unusable local. -/
theorem Frame.HalvesMatch.skip {β : Type} {t : SlotType} {locals : List SlotType}
    (h : HalvesMatch (t :: locals)) (scan : Nat → List SlotType → β)
    (hscan : ∀ rest, scan 1 (.top :: rest) = scan 0 (.top :: rest)) :
    scan (t.width - 1) locals = scan 0 locals := by
  rcases t.width_eq with hnarrow | hwide
  · rw [hnarrow]
  · obtain ⟨rest, rfl⟩ := h.head hwide
    rw [hwide]
    exact hscan rest

/-- Skipping the second half of a wide local loses nothing, since nothing is saved of it. -/
theorem savedLocalsFrom_eq {locals : List SlotType} (h : Frame.HalvesMatch locals) (slot : Nat) :
    savedLocalsFrom slot 0 locals =
      (locals.zipIdx slot).filterMap fun (t, slot) => savedLocal? t slot := by
  induction locals generalizing slot with
  | nil => rfl
  | cons t locals ih =>
    have hlater : savedLocalsFrom (slot + 1) (t.width - 1) locals =
        savedLocalsFrom (slot + 1) 0 locals := h.skip _ fun _ => rfl
    simp only [savedLocalsFrom, List.zipIdx_cons, List.filterMap_cons, savedLocal?, hlater,
      ih h.tail]
    cases ValueKind.ofSlot? t <;> rfl

theorem nullLocalsFrom_eq {locals : List SlotType} (h : Frame.HalvesMatch locals) (slot : Nat) :
    nullLocalsFrom slot 0 locals =
      (locals.zipIdx slot).filterMap fun (t, slot) => if t = .null then some slot else none := by
  induction locals generalizing slot with
  | nil => rfl
  | cons t locals ih =>
    have hlater : nullLocalsFrom (slot + 1) (t.width - 1) locals =
        nullLocalsFrom (slot + 1) 0 locals := h.skip _ fun _ => rfl
    simp only [nullLocalsFrom, List.zipIdx_cons, List.filterMap_cons, hlater, ih h.tail]
    split <;> rfl

namespace SuspendPoint

variable {p : SuspendPoint}

/-- The locals that are saved: those that hold a value other than null. -/
theorem mem_savedLocals (h : Frame.HalvesMatch p.frame.locals) {value : SavedValue} :
    value ∈ p.savedLocals ↔ ∃ t, p.frame.locals[value.slot]? = some t ∧
      ValueKind.ofSlot? t = some value.kind ∧ value.cast = castType? t := by
  rw [savedLocals, savedLocalsFrom_eq h, List.mem_filterMap]
  constructor
  · rintro ⟨⟨t, slot⟩, hmem, hvalue⟩
    obtain ⟨kind, hkind, rfl⟩ := Option.map_eq_some_iff.mp hvalue
    exact ⟨t, List.mem_zipIdx_iff_getElem?.mp hmem, hkind, rfl⟩
  · rintro ⟨t, hget, hkind, hcast⟩
    refine ⟨(t, value.slot), List.mem_zipIdx_iff_getElem?.mpr hget, ?_⟩
    simp only [savedLocal?, hkind, Option.map_some, ← hcast]

theorem mem_nullLocals (h : Frame.HalvesMatch p.frame.locals) {slot : Nat} :
    slot ∈ p.nullLocals ↔ p.frame.locals[slot]? = some .null := by
  rw [nullLocals, nullLocalsFrom_eq h, List.mem_filterMap]
  constructor
  · rintro ⟨⟨t, slot'⟩, hmem, hslot⟩
    obtain ⟨rfl, heq⟩ := Option.ite_none_right_eq_some.mp hslot
    cases heq
    exact List.mem_zipIdx_iff_getElem?.mp hmem
  · intro hget
    exact ⟨(.null, slot), List.mem_zipIdx_iff_getElem?.mpr hget, if_pos rfl⟩

theorem savedLocals_length (h : Frame.HalvesMatch p.frame.locals) :
    p.savedLocals.length ≤ p.frame.locals.length := by
  rw [savedLocals, savedLocalsFrom_eq h]
  exact Nat.le_trans (List.length_filterMap_le _ _) (Nat.le_of_eq List.length_zipIdx)

/-- What is saved of the stack was on it, so it is not unusable. -/
theorem stackToSave_ne_top {size : Nat} (hf : p.frame.WellFormed size) :
    ∀ t ∈ p.stackToSave, t ≠ .top := by
  intro t ht
  refine hf.stack t ?_
  rw [stackToSave] at ht
  split at ht
  · exact List.mem_reverse.mp ht
  · exact List.mem_of_mem_tail (List.mem_reverse.mp ht)

end SuspendPoint

end Resumption
