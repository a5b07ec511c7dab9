import Resumption.Heap.Value
import Resumption.Proofs.Frame.Order

/-!
# Values by kind

What a slot type says about a value if classes do not count (`SlotType.Admits`): the kind of the
value, that it is null, or nothing at all. Merging slot types only admits more values
(`SlotType.merge_admits`), whatever the hierarchy says, so frames are ordered by what they admit
(`SlotType.Narrows`).
-/

namespace Resumption

/-- Is it a value of the kind? -/
def Value.HasKind (v : Value) : ValueKind → Prop
  | .int => ∃ n, v = .int n
  | .long => ∃ n, v = .long n
  | .float => ∃ bits, v = .float bits
  | .double => ∃ bits, v = .double bits
  | .object => v = .null ∨ ∃ r, v = .ref r

namespace Value.HasKind

variable {v : Value} {kind : ValueKind}

theorem width_eq (h : v.HasKind kind) : v.width = kind.width := by
  cases kind with
  | object => rcases h with rfl | ⟨r, rfl⟩ <;> rfl
  | _ =>
    obtain ⟨_, rfl⟩ := h
    rfl

theorem ne_top (h : v.HasKind kind) : v ≠ .top := by
  rintro rfl
  cases kind with
  | object => rcases h with h | ⟨r, h⟩ <;> cases h
  | _ =>
    obtain ⟨_, h⟩ := h
    cases h

end Value.HasKind

namespace SlotType

/-- May a value of this kind be in the slot? -/
def Admits : SlotType → Value → Prop
  | .top, _ => True
  | .integer, v => v.HasKind .int
  | .long, v => v.HasKind .long
  | .float, v => v.HasKind .float
  | .double, v => v.HasKind .double
  | .null, v => v = .null
  | .uninitializedThis, v | .object _, v | .uninitialized _ _, v => v.HasKind .object

variable {t u s : SlotType} {v : Value}

/-- A slot that can be used holds a value of some kind. -/
theorem Admits.hasKind (h : t.Admits v) (ht : t ≠ .top) :
    ∃ kind : ValueKind, v.HasKind kind ∧ kind.width = t.width := by
  cases t with
  | top => exact absurd rfl ht
  | integer => exact ⟨.int, h, rfl⟩
  | long => exact ⟨.long, h, rfl⟩
  | float => exact ⟨.float, h, rfl⟩
  | double => exact ⟨.double, h, rfl⟩
  | null => exact ⟨.object, .inl h, rfl⟩
  | uninitializedThis | object _ | uninitialized _ _ => exact ⟨.object, h, rfl⟩

theorem Admits.width_eq (h : t.Admits v) (ht : t ≠ .top) : v.width = t.width := by
  obtain ⟨kind, hkind, hwidth⟩ := h.hasKind ht
  rw [hkind.width_eq, hwidth]

theorem Admits.ne_top (h : t.Admits v) (ht : t ≠ .top) : v ≠ .top := by
  obtain ⟨kind, hkind, -⟩ := h.hasKind ht
  exact hkind.ne_top

/-- Null and objects, initialized or not, are references. -/
theorem Admits.reference (h : t.Admits v) (ht : t.isReference = true) : v.HasKind .object := by
  cases t with
  | null => exact .inl h
  | uninitializedThis | object _ | uninitialized _ _ => exact h
  | _ => cases ht

/-- Does the second slot type admit all that the first admits? -/
def Narrows (t u : SlotType) : Prop := ∀ v, t.Admits v → u.Admits v

/-- **Merging.** -/
theorem merge_admits {h : Hierarchy} (hok : merge h t u = .ok s) : t.Narrows s ∧ u.Narrows s := by
  simp only [merge] at hok
  split at hok
  · rename_i heq
    cases hok
    exact ⟨fun _ hv => hv, fun _ hv => heq ▸ hv⟩
  split at hok
  · cases hok
    exact ⟨fun _ hv => .inl hv, fun _ hv => hv⟩
  · cases hok
    exact ⟨fun _ hv => hv, fun _ hv => .inl hv⟩
  · obtain ⟨type, -, hok⟩ := Except.bind_ok.mp hok
    cases hok
    exact ⟨fun _ hv => hv, fun _ hv => hv⟩
  · cases hok
    exact ⟨fun _ _ => trivial, fun _ _ => trivial⟩

end SlotType

/-- Frames in the order of what their entries admit. -/
def Frame.Narrows : Frame → Frame → Prop := Pointwise SlotType.Narrows

theorem Frame.merge_narrows {h : Hierarchy} {size : Nat} {a b m : Frame} (ha : a.WellFormed size)
    (hb : b.WellFormed size) (hok : merge h a b = .ok m) : a.Narrows m ∧ b.Narrows m :=
  merge_pointwise (P := fun _ => True) (fun _ _ _ => trivial)
    (fun _ _ hs => SlotType.merge_admits hs) (ha.length.trans hb.length.symm)
    ⟨fun _ _ => trivial, fun _ _ => trivial⟩ ⟨fun _ _ => trivial, fun _ _ => trivial⟩ hok

end Resumption
