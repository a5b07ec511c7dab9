import Resumption.Proofs.Frame.Mirroring
import Resumption.Proofs.Instrument.Savable

/-!
# Locals of generated code

Below its own variables, generated code has the locals of the method as written. Types of locals are
given by slot here (`SlotTypes`), with as many slots as ever needed.

* **`Frame.of`** is the frame with such locals. What loads and stores do to it is said by
  `Frame.of_load` and `Frame.of_store`: after a store the locals may be described by any types that
  leave the others alone, so slots are given up and taken again at will.
* **`Holdings`** are variables that hold something. They are apart if they are leased
  (`Holdings.fits_of_separate`) or locals of one frame (`Holdings.fits_of_frame`).
* **`SlotTypes.beside`** puts variables above the locals of the method.
-/

namespace Resumption

/-- Types of locals by slot. -/
abbrev SlotTypes := Nat → SlotType

variable {size first slot : Nat}

namespace SlotTypes

/-- May values of the first types be used as values of the second? -/
def Suits (T T' : SlotTypes) : Prop := ∀ slot, (T slot).Suits id (T' slot)

/-- A wide value has both its slots among the first `size`, the second of them unusable. -/
def Whole (size : Nat) (T : SlotTypes) : Prop :=
  ∀ slot, slot < size → (T slot).width = 2 → slot + 1 < size ∧ T (slot + 1) = .top

/-- The first `size` types, as locals of a frame. -/
def locals (size : Nat) (T : SlotTypes) : List SlotType := (List.range size).map T

variable {T T' T'' : SlotTypes}

/-- Variables suit themselves. -/
theorem Suits.refl (T : SlotTypes) : T.Suits T := fun slot => .refl (T slot)

/-- Variables suit across others. -/
theorem Suits.trans (h : T.Suits T') (h' : T'.Suits T'') : T.Suits T'' := fun slot =>
  (h slot).trans (h' slot)

/-- The variables of a frame are read off slot by slot. -/
theorem getElem?_locals (T : SlotTypes) (slot : Nat) :
    (T.locals size)[slot]? = if slot < size then some (T slot) else none := by
  rw [locals, List.getElem?_map]
  split
  · rw [List.getElem?_range ‹_›]
    rfl
  · rw [List.getElem?_eq_none (by rw [List.length_range]; omega)]
    rfl

@[simp] theorem length_locals (T : SlotTypes) : (T.locals size).length = size := by
  rw [locals, List.length_map, List.length_range]

/-- Variables that suit make locals that suit. -/
theorem Suits.locals (h : T.Suits T') :
    Frame.LocalsSuit id size (T.locals size) (T'.locals size) := by
  refine ⟨(length_locals T).ge, fun k u hk hu => ?_⟩
  rw [getElem?_locals, if_pos hk] at hu ⊢
  cases hu
  exact ⟨_, rfl, h k⟩

/-- The halves of wide values are together in whole variables. -/
theorem Whole.halves (h : Whole size T) : Frame.HalvesMatch (T.locals size) := by
  intro k t hk hwide
  rw [getElem?_locals] at hk
  split at hk
  · cases hk
    obtain ⟨hlt, htop⟩ := h k ‹_› hwide
    rw [getElem?_locals, if_pos hlt, htop]
  · cases hk

end SlotTypes

namespace Frame

variable {T T' : SlotTypes} {stack stack' : List SlotType} {context : MethodContext} {index : Nat}

/-- The frame with these locals. -/
def of (size : Nat) (T : SlotTypes) (stack : List SlotType) : Frame := ⟨T.locals size, stack⟩

@[simp] theorem of_locals : (of size T stack).locals = T.locals size := rfl

@[simp] theorem of_stack : (of size T stack).stack = stack := rfl

/-- Whole variables and a stack without `top` make a well-formed frame. -/
theorem of_wellFormed (h : T.Whole size) (hstack : ∀ t ∈ stack, t ≠ .top) :
    (of size T stack).WellFormed size :=
  ⟨T.length_locals, h.halves, hstack⟩

/-- Frames suit if their variables do. -/
theorem of_suits (h : T.Suits T') (hstack : ∀ t ∈ stack, t ≠ .top) :
    (of size T stack).Suits id size (of size T' stack) :=
  ⟨h.locals, List.forall₂_same.mpr fun t ht => ⟨hstack t ht, .refl t⟩⟩

/-- A variable of the frame is its type. -/
theorem of_local (hslot : slot < size) : (of size T stack).local? slot = .ok (T slot) := by
  rw [local?, of_locals, SlotTypes.getElem?_locals, if_pos hslot]

/-- A load pushes the type of its variable. -/
theorem of_load {kind : ValueKind} (hroom : slot + kind.width ≤ size)
    (hkind : holdsKind kind (T slot) = true) :
    (of size T stack).step context index (.load kind slot) = .ok (of size T (T slot :: stack)) := by
  have hpos : 0 < kind.width := by cases kind <;> exact Nat.zero_lt_succ _
  have hload : (of size T stack).load kind slot = .ok (of size T (T slot :: stack)) := by
    rw [load, of_local (by omega)]
    exact if_pos hkind
  exact hload

/-- An increment of an integer leaves the frame. -/
theorem of_increment {delta : Int16} (hslot : slot < size) (hinteger : T slot = .integer) :
    (of size T stack).step context index (.increment slot delta) = .ok (of size T stack) := by
  have hstep : (of size T stack).step context index (.increment slot delta) = (do
      if (← (of size T stack).local? slot) = .integer then return of size T stack
      else throw .invalidType) := rfl
  rw [hstep, of_local hslot, hinteger]
  rfl

/-- **Stores.** The types afterwards have to describe what is stored, and otherwise nothing that was
not there before. -/
theorem of_store {kind : ValueKind} {t : SlotType} (hroom : slot + kind.width ≤ size)
    (hkind : holdsKind kind t = true) (hwhole : T'.Whole size) (hself : t.Suits id (T' slot))
    (htop : T' slot ≠ .top) (hothers : ∀ k, k ≠ slot → (T k).Suits id (T' k))
    (hstack : ∀ t ∈ stack, t ≠ .top) :
    ∃ f, (of size T (t :: stack)).step context index (.store kind slot) = .ok f ∧
      f.Suits id size (of size T' stack) := by
  have hwidth : t.width = kind.width := holdsKind_width hkind
  obtain ⟨locals, hlocals⟩ : ∃ locals, storeLocal (T.locals size) slot t = .ok locals := by
    simp only [storeLocal, SlotTypes.length_locals, hwidth]
    rw [if_neg (by omega)]
    exact ⟨_, rfl⟩
  have hstore : (of size T (t :: stack)).store kind slot = .ok ⟨locals, stack⟩ := by
    have hpop : popWhere (holdsKind kind) (of size T (t :: stack)).stack = .ok (t, stack) :=
      if_pos hkind
    rw [store, hpop]
    exact Except.bind_ok.mpr ⟨_, rfl, Except.bind_ok.mpr ⟨locals, hlocals, rfl⟩⟩
  refine ⟨_, hstore, ⟨?_, fun k u hk hu => ?_⟩, List.forall₂_same.mpr fun t ht =>
    ⟨hstack t ht, .refl t⟩⟩
  · rw [storeLocal_length hlocals, SlotTypes.length_locals]
  rw [of_locals, SlotTypes.getElem?_locals, if_pos hk] at hu
  cases hu
  rw [(storeLocal_get? hlocals k).2, SlotTypes.getElem?_locals, if_pos hk]
  by_cases hslot : k = slot
  · subst hslot
    exact ⟨t, if_pos rfl, hself⟩
  rw [if_neg hslot]
  split
  · -- the second half of what is stored
    rename_i hsecond
    obtain ⟨hwide, rfl⟩ := hsecond
    have hwide' : (T' slot).width = 2 := by
      rw [← hself.width_eq htop]
      exact hwide
    obtain ⟨-, hnext⟩ := hwhole slot (by omega) hwide'
    exact ⟨.top, rfl, hnext ▸ .refl _⟩
  · split
    · -- a wide value before it is ruined, and not described any more
      rename_i hruined
      obtain ⟨rfl, hwide⟩ := hruined
      refine ⟨.top, rfl, ?_⟩
      by_cases hkept : T' k = .top
      · rw [hkept]
        exact .refl _
      · have hwide' : (T' k).width = 2 := by
          rw [← (hothers k hslot).width_eq hkept]
          simpa using hwide
        exact absurd (hwhole k hk hwide').2 htop
    · exact ⟨T k, rfl, hothers k hslot⟩

end Frame

/-! ## Variables in use -/

/-- A variable in use: its slot, the kind of values it is for, and the type of what it holds. -/
structure Holding where
  /-- the variable -/
  slot : Nat
  /-- the kind that it is leased for -/
  kind : ValueKind
  /-- what is in it -/
  type : SlotType
deriving DecidableEq, Repr

/-- The slots of the variable. -/
def Holding.span (x : Holding) : Span := ⟨x.slot, x.kind.width⟩

/-- A leased variable that holds a value of a type. -/
def Lease.holds (l : Lease) (t : SlotType) : Holding := ⟨l.slot, l.kind, t⟩

/-- Variables in use. -/
abbrev Holdings := List Holding

namespace Holdings

/-- The type of what is held in a slot. -/
def typeAt : Holdings → SlotTypes
  | [], _ => .top
  | x :: held, slot => if slot = x.slot then x.type else typeAt held slot

/-- Variables that are apart from each other, between the first slot and the last, each with a value
of its kind. -/
structure Fits (first size : Nat) (held : Holdings) : Prop where
  /-- variables are apart from one another -/
  apart : ∀ x ∈ held, ∀ y ∈ held, x ≠ y → x.span.Apart y.span
  /-- they are within the frame -/
  bounds : ∀ x ∈ held, first ≤ x.slot ∧ x.slot + x.kind.width ≤ size
  /-- what is in them is of their kinds -/
  kinds : ∀ x ∈ held, Frame.holdsKind x.kind x.type = true

variable {held held' : Holdings} {x : Holding}

/-- Fewer holdings fit too. -/
theorem Fits.subset (h : Fits first size held) (hsub : held' ⊆ held) : Fits first size held' :=
  ⟨fun x hx y hy => h.apart x (hsub hx) y (hsub hy), fun x hx => h.bounds x (hsub hx),
    fun x hx => h.kinds x (hsub hx)⟩

/-- Holdings fit behind fewer variables too. -/
theorem Fits.of_le {first' : Nat} (h : Fits first size held) (hle : first' ≤ first) :
    Fits first' size held :=
  ⟨h.apart, fun x hx => ⟨hle.trans (h.bounds x hx).1, (h.bounds x hx).2⟩, h.kinds⟩

/-- What is in a slot is held there. -/
theorem typeAt_cases (held : Holdings) (slot : Nat) :
    held.typeAt slot = .top ∨ ∃ x ∈ held, x.slot = slot ∧ x.type = held.typeAt slot := by
  induction held with
  | nil => exact .inl rfl
  | cons x held ih =>
    rw [typeAt]
    split
    · rename_i heq
      exact .inr ⟨x, List.mem_cons_self .., heq.symm, rfl⟩
    · exact ih.imp_right fun ⟨x, hx, hslot⟩ => ⟨x, List.mem_cons_of_mem _ hx, hslot⟩

theorem kind_width_pos (kind : ValueKind) : 0 < kind.width := by
  cases kind <;> exact Nat.zero_lt_succ _

/-- A holding is found in its slot. -/
theorem Fits.typeAt_of_mem (h : Fits first size held) (hmem : x ∈ held) :
    held.typeAt x.slot = x.type := by
  induction held with
  | nil => cases hmem
  | cons y held ih =>
    rw [typeAt]
    split
    · rename_i heq
      by_cases hxy : x = y
      · rw [hxy]
      · have hapart := h.apart x hmem y (List.mem_cons_self ..) hxy
        have hpos := kind_width_pos x.kind
        have hpos' := kind_width_pos y.kind
        simp only [Span.Apart, Holding.span] at hapart
        omega
    · rename_i hne
      refine ih (h.subset (List.subset_cons_self ..)) ((List.mem_cons.mp hmem).resolve_left ?_)
      rintro rfl
      exact hne rfl

/-- Holdings that fit are whole. -/
theorem Fits.whole (h : Fits first size held) : (typeAt held).Whole size := by
  intro slot hslot hwide
  rcases held.typeAt_cases slot with htop | ⟨x, hx, rfl, htype⟩
  · rw [htop] at hwide
    cases hwide
  · rw [← htype] at hwide
    have hkind : x.kind.width = 2 := (Frame.holdsKind_width (h.kinds _ hx)).symm.trans hwide
    have hbound := (h.bounds _ hx).2
    refine ⟨by omega, ?_⟩
    rcases held.typeAt_cases (x.slot + 1) with htop | ⟨y, hy, hslot', -⟩
    · exact htop
    · -- another variable would reach into this one
      have hne : x ≠ y := by
        rintro rfl
        omega
      have hapart := h.apart x hx y hy hne
      simp only [Span.Apart, Holding.span] at hapart
      have hpos := kind_width_pos y.kind
      omega

/-- What is forgotten leaves the rest as it is. -/
theorem Fits.suits (h : Fits first size held) (hsub : held' ⊆ held) :
    (typeAt held).Suits (typeAt held') := by
  intro slot
  rcases held'.typeAt_cases slot with htop | ⟨x, hx, rfl, htype⟩
  · rw [htop]
    exact .top _
  · rw [h.typeAt_of_mem (hsub hx), htype]
    exact .refl _

/-- Variables below and above a slot. -/
theorem Fits.append {below above : Holdings} (h : below.Fits 0 first) (h' : above.Fits first size)
    (hle : first ≤ size) : Fits 0 size (below ++ above) := by
  have hcross : ∀ x ∈ below, ∀ y ∈ above, x.span.Apart y.span := fun x hx y hy =>
    .inl ((h.bounds x hx).2.trans (h'.bounds y hy).1)
  refine ⟨fun x hx y hy hne => ?_, fun x hx => ?_, fun x hx => ?_⟩
  · rcases List.mem_append.mp hx with hx | hx <;> rcases List.mem_append.mp hy with hy | hy
    · exact h.apart x hx y hy hne
    · exact hcross x hx y hy
    · exact (hcross y hy x hx).symm
    · exact h'.apart x hx y hy hne
  · rcases List.mem_append.mp hx with hx | hx
    · exact ⟨Nat.zero_le _, (h.bounds x hx).2.trans hle⟩
    · exact ⟨Nat.zero_le _, (h'.bounds x hx).2⟩
  · rcases List.mem_append.mp hx with hx | hx
    · exact h.kinds x hx
    · exact h'.kinds x hx

/-- A type is of one kind at most. -/
theorem kind_eq_of_holdsKind {kind kind' : ValueKind} {t : SlotType}
    (h : Frame.holdsKind kind t = true) (h' : Frame.holdsKind kind' t = true) : kind = kind' := by
  cases t <;> cases kind <;> first | (cases h; done) | (cases kind' <;> first | rfl | cases h')

/-- Usable locals of a frame are variables that are apart. -/
theorem fits_of_frame {f : Frame} (hf : f.WellFormed size)
    (h : ∀ x ∈ held, f.locals[x.slot]? = some x.type ∧ Frame.holdsKind x.kind x.type = true) :
    Fits 0 size held := by
  have hends : ∀ x ∈ held, ∀ y ∈ held, x.slot < y.slot → x.slot + x.kind.width ≤ y.slot := by
    intro x hx y hy hlt
    obtain ⟨hget, hkind⟩ := h x hx
    rw [← Frame.holdsKind_width hkind]
    rcases x.type.width_eq with hnarrow | hwide
    · omega
    · have hsecond := hf.halves x.slot x.type hget hwide
      have hne : y.slot ≠ x.slot + 1 := by
        intro heq
        obtain ⟨hget', hkind'⟩ := h y hy
        rw [heq, hsecond] at hget'
        exact Frame.holdsKind_ne_top hkind' (Option.some.inj hget').symm
      omega
  refine ⟨fun x hx y hy hne => ?_, fun x hx => ⟨Nat.zero_le _, ?_⟩, fun x hx => (h x hx).2⟩
  · rcases Nat.lt_trichotomy x.slot y.slot with hlt | heq | hlt
    · exact .inl (hends x hx y hy hlt)
    · -- what is in a slot decides for which kind of values it is
      obtain ⟨hget, hkind⟩ := h x hx
      obtain ⟨hget', hkind'⟩ := h y hy
      obtain ⟨slot, kind, t⟩ := x
      obtain ⟨slot', kind', t'⟩ := y
      simp only at heq hget hget' hkind hkind'
      subst heq
      obtain rfl := Option.some.inj (hget.symm.trans hget')
      exact absurd (by rw [kind_eq_of_holdsKind hkind hkind']) hne
    · exact .inr (hends y hy x hx hlt)
  · obtain ⟨hget, hkind⟩ := h x hx
    rw [← Frame.holdsKind_width hkind]
    exact hf.below hget

/-- Leased variables are apart. -/
theorem fits_of_separate {leases : List Lease} (h : Separate first leases)
    (hspans : (held.map Holding.span).Subperm (leases.map Lease.span))
    (hkinds : ∀ x ∈ held, Frame.holdsKind x.kind x.type = true) : Fits first 0xFFFF held := by
  have hapart : (held.map Holding.span).Pairwise Span.Apart := by
    obtain ⟨spans, hperm, hsub⟩ := hspans
    exact (hperm.pairwise_iff fun hs => hs.symm).mp ((List.pairwise_map.mpr h.apart).sublist hsub)
  refine ⟨fun x hx y hy hne => ?_, fun x hx => ?_, hkinds⟩
  · have hsymm : Std.Symm fun x y : Holding => x.span.Apart y.span := ⟨fun _ _ hs => hs.symm⟩
    exact (List.pairwise_map.mp hapart).forall hx hy hne
  · obtain ⟨lease, hlease, heq⟩ := List.mem_map.mp (hspans.subset (List.mem_map_of_mem hx))
    have hslot : lease.slot = x.slot := congrArg Span.slot heq
    have hwidth : lease.kind.width = x.kind.width := congrArg Span.width heq
    have habove := h.above lease hlease
    have hroom := h.room lease hlease
    omega

/-- What is held suits all that is known of slots from it. -/
theorem Fits.suits_of {T : SlotTypes} (h : Fits 0 size held)
    (hT : ∀ slot, T slot = .top ∨ ∃ x ∈ held, x.slot = slot ∧ x.type = T slot) :
    (typeAt held).Suits T := by
  intro slot
  rcases hT slot with htop | ⟨x, hx, rfl, htype⟩
  · rw [htop]
    exact .top _
  · rw [h.typeAt_of_mem hx, htype]
    exact .refl _

end Holdings

namespace SlotTypes

variable {base base' : SlotTypes} {held held' : Holdings} {x : Holding}

/-- Locals of the method below its first leased variable, and what is held in those. -/
def beside (first : Nat) (base : SlotTypes) (held : Holdings) : SlotTypes := fun slot =>
  if slot < first then base slot else held.typeAt slot

/-- Holdings beside nothing are the holdings. -/
theorem beside_zero (base : SlotTypes) (held : Holdings) : beside 0 base held = held.typeAt :=
  funext fun _ => if_neg (Nat.not_lt_zero _)

/-- The variables of the body come first. -/
theorem beside_of_lt (hslot : slot < first) : beside first base held slot = base slot := if_pos hslot

/-- A holding is found beside the variables of the body. -/
theorem beside_of_mem (h : Holdings.Fits first size held) (hmem : x ∈ held) :
    beside first base held x.slot = x.type := by
  have hfirst := (h.bounds _ hmem).1
  rw [beside, if_neg (by omega)]
  exact h.typeAt_of_mem hmem

/-- Whole variables beside holdings that fit are whole. -/
theorem beside_whole (hfirst : first ≤ size) (hbase : base.Whole first)
    (h : Holdings.Fits first size held) : (beside first base held).Whole size := by
  intro slot hslot hwide
  rw [beside] at hwide
  split at hwide
  · obtain ⟨hlt, htop⟩ := hbase slot ‹_› hwide
    exact ⟨by omega, by rw [beside, if_pos hlt, htop]⟩
  · obtain ⟨hlt, htop⟩ := h.whole slot hslot hwide
    exact ⟨hlt, by rw [beside, if_neg (by omega), htop]⟩

/-- Fewer holdings beside variables that suit suit. -/
theorem beside_suits (hbase : ∀ slot, slot < first → (base slot).Suits id (base' slot))
    (h : Holdings.Fits first size held) (hsub : held' ⊆ held) :
    (beside first base held).Suits (beside first base' held') := by
  intro slot
  rw [beside, beside]
  split
  · exact hbase slot ‹_›
  · exact h.suits hsub slot

/-- What is held is known without the locals of the method. -/
theorem beside_suits_held (base : SlotTypes) (h : Holdings.Fits first size held) :
    (beside first base held).Suits held.typeAt := by
  intro slot
  rcases held.typeAt_cases slot with htop | ⟨x, hx, rfl, htype⟩
  · rw [htop]
    exact .top _
  · rw [← htype, beside_of_mem h hx]
    exact .refl _

end SlotTypes

end Resumption
