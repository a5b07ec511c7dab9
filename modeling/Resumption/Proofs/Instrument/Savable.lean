import Resumption.Proofs.Instrument.Points
import Resumption.Proofs.Instrument.Restoring

/-!
# What a point saves

An activation at a point has the values of the frame in its locals and, once the stack was spilled, in
the variables that were leased for it. This file collects what save and restore need to know of them:

* **`Savable`** is the activation itself. It stays so while the machine goes on (`Savable.later`).
* **`Savable.localKinds`** and **`Savable.stackKinds`** are what saving needs.
* **`Savable.restorable_locals`** and **`Savable.restorable_stack`** are what restoring needs: saved
  locals are apart since a wide one is followed by an unusable one, and leased variables are apart
  since they are leased at the same time.
-/

namespace Resumption

/-! ## The spilled stack -/

/-- Every leased variable has its value. -/
theorem exists_value {R : SlotType → Value → Prop} {types : List SlotType}
    {leases : List (Option Lease)} {values : List Value}
    (hleases : List.Forall₂ Leased types leases) (hvalues : List.Forall₂ R types values)
    {t : SlotType} {lease : Option Lease} (h : (t, lease) ∈ types.zip leases) :
    Leased t lease ∧ ∃ v, (lease, v) ∈ leases.zip values ∧ R t v := by
  induction hleases generalizing values with
  | nil => cases h
  | cons hfirst _ ih =>
    cases hvalues with
    | @cons _ v _ values hv hvalues =>
      rcases List.mem_cons.mp h with heq | h
      · cases heq
        exact ⟨hfirst, v, List.mem_cons_self .., hv⟩
      · obtain ⟨hlease, w, hw, hR⟩ := ih hvalues h
        exact ⟨hlease, w, List.mem_cons_of_mem _ hw, hR⟩

theorem exists_type {types : List SlotType} {leases : List (Option Lease)} {values : List Value}
    (hleases : List.Forall₂ Leased types leases) {lease : Option Lease} {v : Value}
    (h : (lease, v) ∈ leases.zip values) : ∃ t, (t, lease) ∈ types.zip leases := by
  induction hleases generalizing values with
  | nil => cases h
  | @cons t _ _ _ _ _ ih =>
    cases values with
    | nil => cases h
    | cons w values =>
      rcases List.mem_cons.mp h with heq | h
      · cases heq
        exact ⟨t, List.mem_cons_self ..⟩
      · obtain ⟨t', ht'⟩ := ih h
        exact ⟨t', List.mem_cons_of_mem _ ht'⟩

theorem mem_savedStack {types : List SlotType} {leases : List (Option Lease)} {saved : SavedValue} :
    saved ∈ savedStack types leases ↔ ∃ t lease, (t, some lease) ∈ types.zip leases ∧
      saved = ⟨lease.kind, lease.slot, castType? t⟩ := by
  simp only [savedStack, List.mem_filterMap, Prod.exists, Option.map_eq_some_iff]
  constructor
  · rintro ⟨t, lease, hmem, l, rfl, rfl⟩
    exact ⟨t, l, hmem, rfl⟩
  · rintro ⟨t, l, hmem, rfl⟩
    exact ⟨t, some l, hmem, l, rfl, rfl⟩

/-- A saved stack value is in a leased variable. -/
theorem mem_leases {types : List SlotType} {leases : List (Option Lease)} {saved : SavedValue}
    (h : saved ∈ savedStack types leases) :
    ∃ lease ∈ leases.filterMap id, lease.slot = saved.slot ∧ lease.kind = saved.kind := by
  obtain ⟨t, lease, hmem, rfl⟩ := mem_savedStack.mp h
  exact ⟨lease, List.mem_filterMap.mpr ⟨some lease, (List.of_mem_zip hmem).2, rfl⟩, rfl, rfl⟩

theorem savedStack_length (types : List SlotType) (leases : List (Option Lease)) :
    (savedStack types leases).length ≤ types.length :=
  Nat.le_trans (List.length_filterMap_le _ _)
    (Nat.le_trans (Nat.le_of_eq List.length_zip) (Nat.min_le_left _ _))

theorem savedStack_apart {types : List SlotType} {leases : List (Option Lease)}
    (h : (leases.filterMap id).Pairwise fun l l' => l.span.Apart l'.span) :
    (savedStack types leases).Pairwise fun x y =>
      Span.Apart ⟨x.slot, x.kind.width⟩ ⟨y.slot, y.kind.width⟩ := by
  induction leases generalizing types with
  | nil => rw [savedStack, List.zip_nil_right]; exact .nil
  | cons lease leases ih =>
    cases types with
    | nil => exact .nil
    | cons t types =>
      cases lease with
      | none => exact ih h
      | some l =>
        obtain ⟨hl, hrest⟩ := List.pairwise_cons.mp h
        refine List.pairwise_cons.mpr ⟨fun saved hsaved => ?_, ih hrest⟩
        obtain ⟨l', hl', hslot, hkind⟩ := mem_leases hsaved
        have := hl l' hl'
        rw [Lease.span, Lease.span, hslot, hkind] at this
        exact this

/-! ## The saved locals -/

/-- A local with its second half is among the locals of the method. -/
theorem Frame.WellFormed.below {size slot : Nat} {f : Frame} {t : SlotType} (h : f.WellFormed size)
    (hget : f.locals[slot]? = some t) : slot + t.width ≤ size := by
  have hlt : slot < size := by
    rw [← h.length]
    exact (List.getElem?_eq_some_iff.mp hget).1
  rcases t.width_eq with hnarrow | hwide
  · omega
  · have hlt' : slot + 1 < size := by
      rw [← h.length]
      exact (List.getElem?_eq_some_iff.mp (h.halves slot t hget hwide)).1
    omega

theorem Frame.length_le_words (f : Frame) : f.stack.length ≤ f.words := by
  rw [words]
  induction f.stack with
  | nil => exact Nat.le_refl 0
  | cons t stack ih =>
    have := t.width_eq
    rw [List.length_cons, List.foldr_cons]
    omega

namespace SuspendPoint

variable {p : SuspendPoint}

theorem savedLocals_increasing (h : Frame.HalvesMatch p.frame.locals) :
    p.savedLocals.Pairwise fun x y => x.slot < y.slot := by
  rw [savedLocals, savedLocalsFrom_eq h]
  refine (zipIdx_increasing p.frame.locals 0).filterMap _ ?_
  rintro ⟨t, slot⟩ ⟨t', slot'⟩ hlt x hx y hy
  obtain ⟨_, -, rfl⟩ := Option.map_eq_some_iff.mp hx
  obtain ⟨_, -, rfl⟩ := Option.map_eq_some_iff.mp hy
  exact hlt

theorem width_ofSlot? {t : SlotType} {kind : ValueKind} (h : ValueKind.ofSlot? t = some kind) :
    t.width = kind.width := by
  cases t <;> cases h <;> rfl

/-- What follows a wide local is not usable, so it is neither saved nor null. -/
theorem slot_ne_second (h : Frame.HalvesMatch p.frame.locals) {x : SavedValue}
    (hx : x ∈ p.savedLocals) {slot : Nat} {t : SlotType} (hslot : p.frame.locals[slot]? = some t)
    (ht : t ≠ .top) (hlt : x.slot < slot) : x.slot + x.kind.width ≤ slot := by
  obtain ⟨u, hget, hkind, -⟩ := (mem_savedLocals h).mp hx
  rcases u.width_eq with hnarrow | hwide
  · rw [← width_ofSlot? hkind]
    omega
  · have hsecond := h x.slot u hget hwide
    have hne : slot ≠ x.slot + 1 := by
      rintro rfl
      rw [hsecond] at hslot
      cases hslot
      exact ht rfl
    rw [← width_ofSlot? hkind]
    omega

theorem savedLocals_apart (h : Frame.HalvesMatch p.frame.locals) :
    p.savedLocals.Pairwise fun x y =>
      Span.Apart ⟨x.slot, x.kind.width⟩ ⟨y.slot, y.kind.width⟩ := by
  refine (savedLocals_increasing h).imp_of_mem fun {x y} hx hy hlt => .inl ?_
  obtain ⟨t, hget, hkind, -⟩ := (mem_savedLocals h).mp hy
  refine slot_ne_second h hx hget ?_ hlt
  rintro rfl
  cases hkind

/-- Saved locals are among the locals of the method. -/
theorem savedLocals_below {size : Nat} (h : p.frame.WellFormed size) {x : SavedValue}
    (hx : x ∈ p.savedLocals) : x.slot + x.kind.width ≤ size := by
  obtain ⟨t, hget, hkind, -⟩ := (mem_savedLocals h.halves).mp hx
  rw [← width_ofSlot? hkind]
  exact h.below hget

theorem stackToSave_length (hwords : p.frame.words < 0x10000) :
    p.stackToSave.length < 0x10000 := by
  have hle : p.frame.stack.length ≤ p.frame.words := Frame.length_le_words p.frame
  rw [stackToSave]
  split
  · rw [List.length_reverse]
    omega
  · rw [List.length_reverse, List.length_tail]
    omega

end SuspendPoint

/-! ## Activations at a point -/

/-- An activation at a point, its stack spilled into variables. -/
structure Savable (first : Nat) (p : SuspendPoint) (leases : List (Option Lease)) (m : Machine)
    (b : Activation) (values : List Value) : Prop where
  /-- the frame has a shape that is known -/
  frame : p.frame.WellFormed first
  /-- operands have variables of their kinds -/
  leased : List.Forall₂ Leased p.stackToSave leases
  /-- variables conform to the frame -/
  locals : ∀ (slot : Nat) t, p.frame.locals[slot]? = some t → (b.valueAt slot).Conforms m t
  /-- the values of the stack, bottom first -/
  stack : List.Forall₂ (fun t v => v.Conforms m t) p.stackToSave values
  /-- operands are in their variables -/
  spilled : ∀ lease v, (some lease, v) ∈ leases.zip values → b.valueAt lease.slot = v

namespace Savable

variable {first : Nat} {p : SuspendPoint} {leases : List (Option Lease)} {m m' : Machine}
  {b : Activation} {values : List Value} {l : Layout}

theorem later (h : Savable first p leases m b values) (hlater : m.Precedes m') :
    Savable first p leases m' b values where
  frame := h.frame
  leased := h.leased
  locals := fun slot t ht => (h.locals slot t ht).later hlater
  stack := h.stack.imp fun _ _ hv => hv.later hlater
  spilled := h.spilled

theorem stack_ne_top (h : Savable first p leases m b values) : ∀ t ∈ p.stackToSave, t ≠ .top :=
  p.stackToSave_ne_top h.frame

theorem isSpilled (h : Savable first p leases m b values) :
    List.Forall₂ Spilled leases values :=
  spilled_of_leased h.leased h.stack h.stack_ne_top

/-- The type of a saved local. -/
theorem local_conforms (h : Savable first p leases m b values) {x : SavedValue}
    (hx : x ∈ p.savedLocals) : ∃ t, ValueKind.ofSlot? t = some x.kind ∧ x.cast = castType? t ∧
      (b.valueAt x.slot).Conforms m t := by
  obtain ⟨t, hget, hkind, hcast⟩ := (SuspendPoint.mem_savedLocals h.frame.halves).mp hx
  exact ⟨t, hkind, hcast, h.locals x.slot t hget⟩

/-- The type of a saved value of the stack. -/
theorem stack_conforms (h : Savable first p leases m b values) {x : SavedValue}
    (hx : x ∈ savedStack p.stackToSave leases) : ∃ t, ValueKind.ofSlot? t = some x.kind ∧
      x.cast = castType? t ∧ (b.valueAt x.slot).Conforms m t := by
  obtain ⟨t, lease, hmem, rfl⟩ := mem_savedStack.mp hx
  obtain ⟨hlease, v, hv, hconforms⟩ := exists_value h.leased h.stack hmem
  refine ⟨t, hlease.symm, rfl, ?_⟩
  rw [h.spilled lease v hv]
  exact hconforms

theorem localKinds (h : Savable first p leases m b values) :
    ∀ x ∈ p.savedLocals, (b.valueAt x.slot).HasKind x.kind := by
  intro x hx
  obtain ⟨t, hkind, -, hconforms⟩ := h.local_conforms hx
  exact hconforms.hasKind hkind

theorem stackKinds (h : Savable first p leases m b values) :
    ∀ x ∈ savedStack p.stackToSave leases, (b.valueAt x.slot).HasKind x.kind := by
  intro x hx
  obtain ⟨t, hkind, -, hconforms⟩ := h.stack_conforms hx
  exact hconforms.hasKind hkind

/-- The span of a saved value is known by its kind. -/
theorem span_eq {x : SavedValue} (h : (b.valueAt x.slot).HasKind x.kind) :
    (Body.cellOf (fun x => b.valueAt x.slot) x).span = ⟨x.slot, x.kind.width⟩ := by
  rw [Body.cellOf, Cell.span, h.width_eq]

/-- Leased variables are above the locals. -/
theorem local_apart (h : Savable first p leases m b values) {x : SavedValue}
    (hx : x ∈ p.savedLocals) {slot width : Nat} (hslot : first ≤ slot) :
    Span.Apart ⟨slot, width⟩ (Body.cellOf (fun x => b.valueAt x.slot) x).span := by
  rw [span_eq (h.localKinds x hx)]
  exact .inr (Nat.le_trans (SuspendPoint.savedLocals_below h.frame hx) hslot)

theorem restorable_locals (h : Savable first p leases m b values) {held : List Lease}
    (hfirst : first < 0x10000) (hstate : first ≤ l.state.slot) :
    Body.Restorable l first held m p.savedLocals fun x => b.valueAt x.slot where
  kinds := h.localKinds
  casts := fun x hx t hcast => by
    obtain ⟨u, -, hcast', hconforms⟩ := h.local_conforms hx
    exact hconforms.checkCast (hcast' ▸ hcast)
  size := by
    have := SuspendPoint.savedLocals_length h.frame.halves
    rw [h.frame.length] at this
    omega
  apart := (SuspendPoint.savedLocals_apart h.frame.halves).imp_of_mem fun {x y} hx hy hapart => by
    rw [span_eq (h.localKinds x hx), span_eq (h.localKinds y hy)]
    exact hapart
  temporary := fun array _ hseparate x hx =>
    h.local_apart hx (hseparate.above array (List.mem_cons_self ..))
  state := fun x hx => h.local_apart hx hstate

/-- What is apart from the leased variables is apart from the saved values in them. -/
theorem stack_apart (h : Savable first p leases m b values) {other : Span}
    (hapart : ∀ lease ∈ leases.filterMap id, other.Apart lease.span) {x : SavedValue}
    (hx : x ∈ savedStack p.stackToSave leases) :
    other.Apart (Body.cellOf (fun x => b.valueAt x.slot) x).span := by
  obtain ⟨lease, hlease, hslot, hkind⟩ := mem_leases hx
  rw [span_eq (h.stackKinds x hx), ← hslot, ← hkind]
  exact hapart lease hlease

theorem restorable_stack (h : Savable first p leases m b values) {base : List Lease}
    (hseparate : Separate first (leases.filterMap id ++ base)) (hwords : p.frame.words < 0x10000)
    (hstate : l.state ∈ base) (hstateKind : l.state.kind = .object) :
    Body.Restorable l first (leases.filterMap id ++ base) m (savedStack p.stackToSave leases)
      fun x => b.valueAt x.slot where
  kinds := h.stackKinds
  casts := fun x hx t hcast => by
    obtain ⟨u, -, hcast', hconforms⟩ := h.stack_conforms hx
    exact hconforms.checkCast (hcast' ▸ hcast)
  size := by
    have := savedStack_length p.stackToSave leases
    have := p.stackToSave_length hwords
    omega
  apart := (savedStack_apart (List.pairwise_append.mp hseparate.apart).1).imp_of_mem
    fun {x y} hx hy hapart => by
      rw [span_eq (h.stackKinds x hx), span_eq (h.stackKinds y hy)]
      exact hapart
  temporary := fun array hkind hseparate' x hx => by
    refine h.stack_apart (fun lease hlease => ?_) hx
    rw [← Lease.span_object hkind]
    exact (List.pairwise_cons.mp hseparate'.apart).1 lease (List.mem_append_left _ hlease)
  state := fun x hx => by
    refine h.stack_apart (fun lease hlease => ?_) hx
    rw [← Lease.span_object hstateKind]
    exact ((List.pairwise_append.mp hseparate.apart).2.2 lease hlease l.state hstate).symm

end Savable

end Resumption
