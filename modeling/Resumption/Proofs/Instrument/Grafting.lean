import Resumption.Proofs.Instrument.RestoreBlocks

/-!
# The body as written in generated code

Generated code keeps most instructions of the body as written. They stand at other places there, and
above the locals that they know there are variables in use. Each instruction has a piece of code in its
place: itself, itself with records of monitors around it, or the save sequence of a point. Where the body
goes from one frame to the next, the piece goes from the one to the other in their new places.

* **`SlotType.moved`** is a type of the body as written, where instructions stand at other places.
* **`Graft`** is what is needed to move frames, and **`Graft.frame`** is a frame in its new place.
* **`Graft.step`**: an instruction that was kept accepts the moved frame, and has the effect that it had.
* **`Graft.site`** is where code stands that took the place of an instruction, and **`Graft.Permits`** what
  may be asked of the frames around the instructions of a piece.
* **`Graft.typed_label`**, **`Graft.typed_kept`** and **`Graft.typed_monitor`** are for instructions
  that are kept, `Graft.typed_dead` for those that control never comes to.
* **`Graft.typed_invoke`** and **`Graft.typed_suspend`** are for points.
-/

namespace Resumption

/-! ## Types -/

namespace SlotType

variable {place : Nat → Nat} {t u : SlotType}

/-- The type where instructions stand at other places. -/
def moved (place : Nat → Nat) : SlotType → SlotType
  | .uninitialized c index => .uninitialized c (place index)
  | t => t

/-- A moved type suits the one it was. -/
theorem moved_suits (t : SlotType) : (t.moved place).Suits place t := by
  cases t with
  | uninitialized c index => exact .uninitialized c index
  | _ => exact .same nofun

/-- Nothing is lost when the type is moved instead. -/
theorem Suits.moved (h : t.Suits place u) : t.Suits id (u.moved place) := by
  cases h with
  | top => exact .top t
  | null type => exact .null type
  | object hab => exact .object hab
  | uninitialized c index => exact .refl _
  | same ht =>
    cases t with
    | uninitialized c index => exact absurd rfl (ht c index)
    | _ => exact .refl _

/-- Types that suit each other still do so where they are moved. -/
theorem Suits.map_moved (h : t.Suits id u) : (t.moved place).Suits id (u.moved place) := by
  have hmoved : (t.moved place).Suits (place ∘ id) u := (moved_suits t).trans h
  exact hmoved.moved

/-- Moving a type makes no `top` of it. -/
theorem moved_ne_top (h : t ≠ .top) : t.moved place ≠ .top := by
  cases t with
  | top => exact absurd rfl h
  | _ => nofun

/-- Moving a type keeps its width. -/
theorem moved_width (t : SlotType) : (t.moved place).width = t.width := by
  cases t <;> rfl

/-- Only uninitialized types are moved. -/
theorem moved_eq (h : t.isUninitialized = false) : t.moved place = t := by
  cases t with
  | uninitialized => cases h
  | _ => rfl

end SlotType

/-- The types of locals, where instructions stand at other places. -/
def SlotTypes.ofLocals (place : Nat → Nat) (locals : List SlotType) : SlotTypes := fun slot =>
  (locals[slot]?.getD .top).moved place

/-- The variables of a frame are moved one by one. -/
theorem SlotTypes.ofLocals_eq {place : Nat → Nat} {locals : List SlotType} {slot : Nat} {t : SlotType}
    (h : locals[slot]? = some t) : ofLocals place locals slot = t.moved place := by
  rw [ofLocals, h, Option.getD_some]

/-- The variables of a well-formed frame are whole. -/
theorem Frame.WellFormed.whole {size : Nat} {f : Frame} (hf : f.WellFormed size)
    (place : Nat → Nat) : (SlotTypes.ofLocals place f.locals).Whole size := by
  intro slot hslot hwide
  have hlt : slot < f.locals.length := hf.length ▸ hslot
  have hget : f.locals[slot]? = some f.locals[slot] := List.getElem?_eq_getElem hlt
  rw [SlotTypes.ofLocals_eq hget, SlotType.moved_width] at hwide
  have hsecond := hf.halves slot _ hget hwide
  rw [SlotTypes.ofLocals_eq hsecond]
  exact ⟨hf.length ▸ (List.getElem?_eq_some_iff.mp hsecond).1, rfl⟩

/-! ## Frames -/

/-- What it takes to move frames of the body as written into generated code. -/
structure Graft where
  /-- the class and the result of the method -/
  context : MethodContext
  /-- the variables of generated code -/
  layout : Layout
  /-- local slots of the body as written -/
  first : Nat
  /-- where its instructions stand now -/
  place : Nat → Nat
  /-- they are where they should be -/
  ready : layout.Ready first
  /-- variables of the body can be addressed -/
  first_lt : first < 0x10000
  /-- local slots of generated code -/
  size : Nat
  /-- frames are as large as they can be -/
  size_eq : size = 0xFFFF
  /-- different instructions are put at different places -/
  injective : Function.Injective place

namespace Graft

variable (G : Graft)

/-- The types of all locals, given those of the method. -/
def types (f : Frame) (held : Holdings) : SlotTypes :=
  .beside G.first (.ofLocals G.place f.locals) held

/-- Where code stands that took the place of an instruction with this frame. -/
def site (labels : Label → Option Frame) (f : Frame) : Site where
  context := G.context
  size := G.size
  first := G.first
  base := .ofLocals G.place f.locals
  guard := G.types f G.layout.lasting
  labels

/-- The frame in its new place. -/
def frame (f : Frame) : Frame :=
  .of G.size (G.types f G.layout.lasting) (f.stack.map (·.moved G.place))

variable {G} {f g : Frame} {labels : Label → Option Frame} {held : Holdings} {stack : List SlotType}

/-- The variables of the body come first. -/
theorem first_le : G.first ≤ G.size := by
  rw [G.size_eq]
  exact Nat.le_of_lt_succ G.first_lt

/-- The pool fits next to the variables of the body. -/
theorem fits : G.layout.pool.Fits G.first G.size := by
  have hseparate : Separate G.first ([] ++ (([] : List (Option Lease)).filterMap id ++ G.layout.shared)) :=
    G.ready.separate
  have hnone : ∀ x ∈ ([] : Holdings), Frame.holdsKind x.kind x.type = true := nofun
  rw [G.size_eq]
  exact Layout.fits G.ready hseparate .nil rfl hnone

/-- What fits next to the variables of the body has room at every site. -/
theorem room (hf : f.WellFormed G.first) (hsub : G.layout.lasting ⊆ held)
    (h : held.Fits G.first G.size) : (G.site labels f).Room held where
  fits := h
  whole_base := hf.whole G.place
  first_le := first_le
  guard := SlotTypes.beside_suits (fun _ _ => .refl _) h hsub

/-- What lasts has room at every site. -/
theorem room_lasting (hf : f.WellFormed G.first) : (G.site labels f).Room G.layout.lasting :=
  room hf (List.Subset.refl _) (fits.subset Layout.lasting_pool)

theorem moved_stack_ne_top (hf : f.WellFormed G.first) :
    ∀ t ∈ f.stack.map (·.moved G.place), t ≠ .top := by
  intro t ht
  obtain ⟨u, hu, rfl⟩ := List.mem_map.mp ht
  exact SlotType.moved_ne_top (hf.stack u hu)

/-- Grafted frames are well formed. -/
theorem frame_wellFormed (hf : f.WellFormed G.first) : (G.frame f).WellFormed G.size := by
  have hroom : (G.site (fun _ => none) f).Room G.layout.lasting := room_lasting hf
  exact hroom.frame_wellFormed (moved_stack_ne_top hf)

/-- Locals of the method are those that it had. -/
theorem site_suits (hstack : Frame.Suited G.place stack f.stack) :
    ((G.site labels f).frame held stack).Suits G.place G.first f := by
  refine ⟨⟨first_le.trans (SlotTypes.length_locals _).ge, fun k u hk hu => ?_⟩, hstack⟩
  refine ⟨u.moved G.place, ?_, u.moved_suits⟩
  have hsize : k < (G.site labels f).size := Nat.lt_of_lt_of_le hk first_le
  change ((G.types f held).locals (G.site labels f).size)[k]? = _
  rw [SlotTypes.getElem?_locals, if_pos hsize, types, SlotTypes.beside_of_lt hk,
    SlotTypes.ofLocals_eq hu]

/-- A moved stack suits the one it was. -/
theorem suited_moved (hf : f.WellFormed G.first) :
    Frame.Suited G.place (f.stack.map (·.moved G.place)) f.stack :=
  List.forall₂_map_left_iff.mpr (List.forall₂_same.mpr fun t ht => ⟨hf.stack t ht, t.moved_suits⟩)

/-- A grafted frame suits the one it was. -/
theorem frame_suits (hf : f.WellFormed G.first) : (G.frame f).Suits G.place G.first f := by
  have hsuits : ((G.site (fun _ => none) f).frame G.layout.lasting
      (f.stack.map (·.moved G.place))).Suits G.place G.first f := site_suits (suited_moved hf)
  exact hsuits

/-- A frame that suits one of the body as written, with the variables that are always in use, suits
that frame in its new place. -/
theorem suits_frame (h : g.Suits G.place G.first f) (hlength : g.locals.length = G.size)
    (hlasting : ∀ x ∈ G.layout.lasting, g.locals[x.slot]? = some x.type) :
    g.Suits id G.size (G.frame f) := by
  refine ⟨⟨hlength.ge, fun k u hk hu => ?_⟩, ?_⟩
  · have hget : g.locals[k]? = some g.locals[k] := List.getElem?_eq_getElem (hlength ▸ hk)
    refine ⟨_, hget, ?_⟩
    rw [frame, Frame.of_locals, SlotTypes.getElem?_locals, if_pos hk] at hu
    cases hu
    rw [types, SlotTypes.beside]
    split
    · rename_i hbelow
      rw [SlotTypes.ofLocals]
      cases hf : f.locals[k]? with
      | none => exact .top _
      | some u =>
        obtain ⟨t, ht, htu⟩ := h.locals.entry k u hbelow hf
        obtain rfl := Option.some.inj (hget.symm.trans ht)
        exact htu.moved
    · rcases G.layout.lasting.typeAt_cases k with htop | ⟨x, hx, rfl, htype⟩
      · rw [htop]
        exact .top _
      · rw [← htype, Option.some.inj (hget.symm.trans (hlasting x hx))]
        exact .refl _
  · rw [frame, Frame.of_stack]
    refine List.forall₂_map_right_iff.mpr (h.stack.imp fun t u hentries => ?_)
    exact ⟨SlotType.moved_ne_top hentries.1, hentries.2.moved⟩

/-- Frames that suit each other still do so where they are moved. -/
theorem frame_mono (h : f.Suits id G.first g) : (G.frame f).Suits id G.size (G.frame g) := by
  refine ⟨SlotTypes.Suits.locals (SlotTypes.beside_suits (fun k hk => ?_)
    (fits.subset Layout.lasting_pool) (List.Subset.refl _)), ?_⟩
  · cases hg : g.locals[k]? with
    | none =>
      have htop : SlotTypes.ofLocals G.place g.locals k = .top := by
        rw [SlotTypes.ofLocals, hg]
        rfl
      rw [htop]
      exact .top _
    | some u =>
      obtain ⟨t, ht, htu⟩ := h.locals.entry k u hk hg
      rw [SlotTypes.ofLocals_eq ht, SlotTypes.ofLocals_eq hg]
      exact htu.map_moved
  · refine List.forall₂_map_left_iff.mpr (List.forall₂_map_right_iff.mpr (h.stack.imp ?_))
    exact fun t u ⟨hu, htu⟩ => ⟨SlotType.moved_ne_top hu, htu.map_moved⟩

/-- Variables that are always in use are where they were. -/
theorem lasting_local {x : Holding} (hx : x ∈ G.layout.lasting) :
    (G.frame f).locals[x.slot]? = some x.type := by
  have hfits := G.fits.subset Layout.lasting_pool
  have hbounds := (hfits.bounds x hx).2
  have hpos := Holdings.kind_width_pos x.kind
  rw [frame, Frame.of_locals, SlotTypes.getElem?_locals, if_pos (by omega), types,
    SlotTypes.beside_of_mem hfits hx]

/-- What lasts is initialized. -/
theorem lasting_initialized {l : Layout} : ∀ x ∈ l.lasting, x.type.isUninitialized = false := by
  intro x hx
  rw [Layout.lasting] at hx
  cases hm : l.monitors with
  | none =>
    rw [hm] at hx
    obtain rfl := List.mem_singleton.mp hx
    rfl
  | some m =>
    simp only [hm, Option.map_some, Option.toList_some, List.mem_cons, List.not_mem_nil,
      or_false] at hx
    rcases hx with rfl | rfl <;> rfl

/-- **An instruction that was kept** has the effect that it had. -/
theorem step {f' : Frame} {i : Instruction} {index place : Nat} (hf : f.WellFormed G.first)
    (hok : f.step G.context index i = .ok f') (hextent : i.localExtent ≤ G.first)
    (hplace : place = G.place index) :
    ∃ g, (G.frame f).step G.context place i = .ok g ∧ g.Suits id G.size (G.frame f') := by
  obtain ⟨g, hstep, hsuits⟩ : ∃ g, (G.frame f).step G.context place i = .ok g ∧
      g.Suits G.place G.first f' :=
    (frame_suits hf).step G.injective (fun _ _ => hplace) hextent f' hok
  refine ⟨g, hstep, suits_frame hsuits ?_ fun x hx => ?_⟩
  · rw [Frame.step_length hstep]
    exact SlotTypes.length_locals _
  · have habove := ((G.fits.subset Layout.lasting_pool).bounds x hx).1
    exact Frame.step_keeps hstep (hextent.trans habove) (lasting_local hx)
      (lasting_initialized x hx)

end Graft

/-! ## Pieces -/

/-- A frame may come to a label if one that it suits may. -/
theorem Frame.Awaited.of_suits {labels : Label → Option Frame} {size : Nat} {l : Label} {f g : Frame}
    (hgf : g.Suits id size f) (h : f.Awaited labels size l) : g.Awaited labels size l := by
  obtain ⟨k, hk, hfk⟩ := h
  exact ⟨k, hk, hgf.trans hfk⟩

/-- A call takes arguments off the stack, and the receiver if there is one, and leaves locals alone if
everything is initialized. What it does to the stack does not depend on locals. -/
theorem Frame.step_invoke {context : MethodContext} {index : Nat} {f f' : Frame} {kind : CallKind}
    {m : MethodRef} (hok : f.step context index (.invoke kind m) = .ok f')
    (hinitialized : f.hasUninitialized = false) :
    f' = ⟨f.locals, pushResult m.descriptor.result
        (f.stack.drop (m.descriptor.parameters.length + if kind = .static then 0 else 1))⟩ ∧
      ∀ xs index', (⟨xs, f.stack⟩ : Frame).step context index' (.invoke kind m) =
        .ok ⟨xs, f'.stack⟩ := by
  obtain ⟨locals, stack⟩ := f
  have hinvoke : (⟨locals, stack⟩ : Frame).invoke context kind m = .ok f' := hok
  suffices hall : f' = ⟨locals, pushResult m.descriptor.result
        (stack.drop (m.descriptor.parameters.length + if kind = .static then 0 else 1))⟩ ∧
      ∀ xs, (⟨xs, stack⟩ : Frame).invoke context kind m = .ok ⟨xs, f'.stack⟩ from
    ⟨hall.1, fun xs _ => hall.2 xs⟩
  obtain ⟨rest, hpop, hinvoke⟩ := Except.bind_ok.mp hinvoke
  obtain ⟨front, hsuffix⟩ : ∃ front, front ++ rest = stack := popFitting_suffix hpop
  have hlength : stack.length = rest.length + m.descriptor.parameters.reverse.length :=
    popFitting_length hpop
  have hfront : front.length = m.descriptor.parameters.length := by
    have := congrArg List.length hsuffix
    simp only [List.length_append, List.length_reverse] at this hlength
    omega
  have hdrop : ∀ n, stack.drop (m.descriptor.parameters.length + n) = rest.drop n := by
    intro n
    rw [← hsuffix, ← hfront, List.drop_append]
    simp
  by_cases hinit : (decide (kind = .special) && decide (m.name = .init)) = true
  · -- the receiver of a constructor would not be initialized
    exfalso
    rw [if_pos hinit] at hinvoke
    cases rest with
    | nil => cases hinvoke
    | cons t rest' =>
      have ht : t.isUninitialized = false := by
        simp only [hasUninitialized, Bool.or_eq_false_iff, List.any_eq_false, Bool.not_eq_true]
          at hinitialized
        exact hinitialized.1 t (hsuffix ▸ List.mem_append_right _ (List.mem_cons_self ..))
      cases t <;> first | cases hinvoke | cases ht
  · rw [if_neg hinit] at hinvoke
    rw [hdrop]
    by_cases hkind : kind = .static
    · rw [if_pos hkind] at hinvoke
      cases hinvoke
      rw [if_pos hkind]
      refine ⟨rfl, fun xs => Except.bind_ok.mpr ⟨rest, hpop, ?_⟩⟩
      rw [if_neg hinit, if_pos hkind]
      rfl
    · rw [if_neg hkind] at hinvoke
      obtain ⟨⟨t, rest'⟩, hreceiver, hinvoke⟩ := Except.bind_ok.mp hinvoke
      cases hinvoke
      rw [if_neg hkind, (popWhere_eq hreceiver).1]
      refine ⟨rfl, fun xs => Except.bind_ok.mpr ⟨t :: rest', (popWhere_eq hreceiver).1 ▸ hpop, ?_⟩⟩
      rw [if_neg hinit, if_neg hkind]
      exact Except.bind_ok.mpr ⟨(t, rest'), (popWhere_eq hreceiver).1 ▸ hreceiver, rfl⟩

/-- What is asked of the frames may be anything that handlers allow for. -/
theorem Site.Goes.typed {s : Site} {f f' : Option Frame} {is : List Instruction}
    {named : Label → Prop} {P : Nat → Frame → Frame → Prop} (h : s.Goes f is f') (index : Nat)
    (hP : ∀ n g g', n < is.length → Covered s.size s.guard (index + n) g g' → P (index + n) g g') :
    Typed s.context s.size s.labels named P index f is f' :=
  (h index).mono (fun _ => False.elim) hP

namespace Graft

variable {G : Graft} {labels : Label → Option Frame} {named : Label → Prop}
  {P : Nat → Frame → Frame → Prop} {f f' : Frame} {start index : Nat}

/-- What may be asked of the frames before and after an instruction of a piece, where the body as
written goes from one frame to another: locals suit those of the one, and afterwards maybe those of the
other. An instruction that was kept has the frame that it had. -/
def Permits (G : Graft) (P : Nat → Frame → Frame → Prop) (f f' : Frame) (kept : Prop) (index : Nat) :
    Prop :=
  ∀ g g', Frame.LocalsSuit id G.size g.locals (G.frame f).locals →
    (Frame.LocalsSuit id G.size g'.locals (G.frame f).locals ∨
      Frame.LocalsSuit id G.size g'.locals (G.frame f').locals) →
    (kept → g.Suits G.place G.first f) → P index g g'

/-- An instruction that is not kept is permitted wherever the frames are covered. -/
theorem Permits.guarded {kept : Prop} (h : G.Permits P f f' kept index) (hkept : ¬ kept) {g g' : Frame}
    (hguarded : Covered G.size (G.types f G.layout.lasting) index g g') : P index g g' :=
  h g g' hguarded.1 (.inl hguarded.2) fun hk => absurd hk hkept

theorem locals_suit (f : Frame) :
    Frame.LocalsSuit id G.size (G.frame f).locals (G.frame f).locals :=
  (SlotTypes.Suits.refl _).locals

/-! ## Instructions that are kept -/

/-- Labels of the body are typed where they are grafted. -/
theorem typed_label {l : Label} (hf : f.WellFormed G.first) (hl : labels l = some (G.frame f))
    {entering : Option Frame} (hentering : ∀ g, entering = some g → g = G.frame f)
    (hP : G.Permits P f f True start) :
    Typed G.context G.size labels named P start entering [.label l] (some (G.frame f)) := by
  refine hl ▸ .label (fun g hg => ?_) (fun g hg => ?_) (.nil _ _)
  · obtain rfl := hentering g hg
    exact ⟨_, hl, .refl (frame_wellFormed hf).length.ge (frame_wellFormed hf).stack⟩
  · obtain rfl := Option.some.inj (hl.symm.trans hg)
    exact hP _ _ (locals_suit f) (.inl (locals_suit f)) fun _ => frame_suits hf

/-- Kept instructions are typed where they are grafted. -/
theorem typed_kept {i : Instruction} {next : Frame} (hf : f.WellFormed G.first)
    (hi : i.placed? = none) (hok : f.step G.context index i = .ok f')
    (hextent : i.localExtent ≤ G.first) (hstart : start = G.place index)
    (htargets : ∀ l ∈ i.targets, (G.frame f').Awaited labels G.size l)
    (hnext : i.fallsThrough = true → next.WellFormed G.first ∧ f'.Suits id G.first next)
    (hP : G.Permits P f f' True start) :
    Typed G.context G.size labels named P start (some (G.frame f)) [i]
      (if i.fallsThrough then some (G.frame next) else none) := by
  obtain ⟨g, hstep, hsuits⟩ := G.step hf hok hextent hstart
  have hP' : P start (G.frame f) g :=
    hP _ _ (locals_suit f) (.inr hsuits.locals) fun _ => frame_suits hf
  have htargets' : ∀ l ∈ i.targets, g.Awaited labels G.size l := fun l hl =>
    (htargets l hl).of_suits hsuits
  cases hfalls : i.fallsThrough with
  | true =>
    obtain ⟨hwellFormed, hmono⟩ := hnext hfalls
    exact .step hi hfalls hstep hP' htargets'
      (.weaken (frame_wellFormed hwellFormed) (hsuits.trans (frame_mono hmono)) (.nil _ _))
  | false => exact .leave hi hfalls hstep hP' htargets' (.nil _ _)

/-- Code that nothing leads to is typed by any frames. -/
theorem typed_dead {is : List Instruction} (hplaced : ∀ i ∈ is, i.placed? = none)
    (hextent : ∀ i ∈ is, i.localExtent ≤ G.size) (hnamed : ∀ i ∈ is, ∀ l ∈ i.targets, named l) :
    Typed G.context G.size labels named P start none is none := by
  induction is generalizing start with
  | nil => exact .nil _ _
  | cons i is ih =>
    obtain ⟨hi, hplaced⟩ := List.forall_mem_cons.mp hplaced
    obtain ⟨hi', hextent⟩ := List.forall_mem_cons.mp hextent
    obtain ⟨hi'', hnamed⟩ := List.forall_mem_cons.mp hnamed
    exact .dead hi hi' hi'' (ih hplaced hextent hnamed)

/-! ## Monitors -/

/-- The variable for a monitor fits next to what lasts. -/
theorem monitor_fits {m : MonitorVariables} (hm : G.layout.monitors = some m) {t : SlotType}
    (ht : t.IsObject) : Holdings.Fits G.first G.size (m.monitor.holds t :: G.layout.lasting) := by
  rw [G.size_eq]
  refine Holdings.fits_of_separate G.ready.separate ?_ (List.forall_mem_cons.mpr ⟨?_, fun x hx =>
    Layout.pool_kinds G.ready x (Layout.lasting_pool hx)⟩)
  · rw [Layout.lasting, Layout.shared, hm]
    refine List.subperm_iff_count.mpr fun span => ?_
    simp only [Option.map_some, Option.toList_some, List.map_cons, List.map_nil, List.count_cons,
      List.count_nil, Layout.heldContinuation, Lease.holds, Holding.span, Lease.span]
    omega
  · rw [Lease.holds, G.ready.monitor_kind m hm]
    exact ht.holdsKind

/-- **A monitor instruction** with a record of what it did. -/
theorem typed_monitor {m : MonitorVariables} (hm : G.layout.monitors = some m) {i : Instruction}
    {record : MethodRef} (hi : i = .monitorEnter ∨ i = .monitorExit)
    (hrecord : record = Interface.LockState.enter ∨ record = Interface.LockState.exit)
    (hf : f.WellFormed G.first) {t : SlotType} {rest : List SlotType} (hstack : f.stack = t :: rest)
    (ht : t.IsObject) (hf' : f' = ⟨f.locals, rest⟩)
    (hP : ∀ n, n < 6 → G.Permits P f f' (n = 2) (start + n)) :
    Typed G.context G.size labels named P start (some (G.frame f)) (Layout.recordMonitor m i record)
      (some (G.frame f')) := by
  subst hf'
  have hinitialized : t.isUninitialized = false := by
    cases t <;> first | rfl | cases ht
  have hrest : ∀ u ∈ rest.map (·.moved G.place), u ≠ .top := by
    intro u hu
    refine moved_stack_ne_top hf u ?_
    rw [hstack]
    exact List.mem_cons_of_mem _ hu
  have hfits := monitor_fits hm ht
  have hroom : (G.site labels f).Room G.layout.lasting := room_lasting hf
  have hroom' := hroom.cons hfits
  have hentering : G.frame f = (G.site labels f).frame G.layout.lasting
      (t :: rest.map (·.moved G.place)) := by
    rw [frame, hstack, List.map_cons, SlotType.moved_eq hinitialized]
    rfl
  have hkeeps := Site.goes_keepMonitor (m := m) hroom ht hfits hrest
  have hrecords := (Site.goes_record hroom' (List.subset_cons_self ..) hm ht (List.mem_cons_self ..)
    hrecord).forgetting hroom' (List.subset_cons_self ..) hrest
  have hstep : ((G.site labels f).frame (m.monitor.holds t :: G.layout.lasting)
      (t :: rest.map (·.moved G.place))).step G.context (start + 2) i =
        .ok ((G.site labels f).frame (m.monitor.holds t :: G.layout.lasting)
          (rest.map (·.moved G.place))) := by
    rcases hi with rfl | rfl <;> cases t <;> first | rfl | cases ht
  have hi' : i.Plain := by
    rcases hi with rfl | rfl <;> exact ⟨rfl, rfl, rfl⟩
  have hsuited : Frame.Suited G.place (t :: rest.map (·.moved G.place)) f.stack := by
    have hsuited := suited_moved hf (G := G)
    rwa [hstack, List.map_cons, SlotType.moved_eq hinitialized, ← hstack] at hsuited
  have hguard : Frame.LocalsSuit id G.size (((G.site labels f).types
      (m.monitor.holds t :: G.layout.lasting)).locals G.size) (G.frame f).locals :=
    hroom'.guard.locals
  rw [hentering]
  rw [Layout.recordMonitor]
  refine Typed.append (hkeeps.typed start fun n g g' hn =>
      (hP n (by simp at hn; omega)).guarded (by simp at hn; omega))
    (.step hi'.1 hi'.2.2 hstep ?_ (by rw [hi'.2.1]; exact nofun) ?_)
  · exact hP 2 (by omega) _ _ hguard (.inl hguard) fun _ => site_suits hsuited
  · refine hrecords.typed _ fun n g g' hn => ?_
    rw [show ∀ k, start + [Instruction.stack .dup, m.monitor.store].length + 1 + k =
      start + (k + 3) by simp only [List.length_cons, List.length_nil]; omega]
    exact (hP (n + 3) (by simp at hn; omega)).guarded (by omega)

/-! ## Points -/

end Graft

namespace PointCode

variable {l : Layout} {first : Nat} {p : SuspendPoint} {i : Instruction} {here : Label}
  {piece : Piece}

/-- Variables in use while a point is saved: what the stack was spilled into, and those that are always
in use. -/
def held (q : PointCode l first l.shared p i here piece) : Holdings :=
  .spilled p.stackToSave q.leases ++ l.lasting

variable (q : PointCode l first l.shared p i here piece)

/-- Spilled operands fit next to the pool. -/
theorem spilled_fits (hready : l.Ready first) :
    (Holdings.spilled p.stackToSave q.leases ++ l.pool).Fits first 0xFFFF := by
  have hseparate : Separate first ([] ++ (q.leases.filterMap id ++ l.shared)) := q.separate
  have hnone : ∀ x ∈ ([] : Holdings), Frame.holdsKind x.kind x.type = true := nofun
  exact Layout.fits hready hseparate q.leased rfl hnone

theorem held_fits (hready : l.Ready first) : q.held.Fits first 0xFFFF :=
  (q.spilled_fits hready).subset (List.append_subset.mpr ⟨List.subset_append_left ..,
    fun _ hx => List.mem_append_right _ (Layout.lasting_pool hx)⟩)

/-- The variables of a loop over monitors fit next to what is held. -/
theorem looping_fits (hready : l.Ready first) {m : MonitorVariables} (hm : l.monitors = some m) :
    (q.held.looping m).Fits first 0xFFFF := by
  refine (q.spilled_fits hready).subset fun x hx => ?_
  have hpool : Holdings.looping m l.lasting ⊆ l.pool :=
    Layout.looping_pool hm (List.subset_cons_self ..)
  simp only [Holdings.looping, held, List.mem_cons, List.mem_append] at hx ⊢
  rcases hx with rfl | rfl | hx | hx
  · exact .inr (hpool (List.mem_cons_self ..))
  · exact .inr (hpool (List.mem_cons_of_mem _ (List.mem_cons_self ..)))
  · exact .inl hx
  · exact .inr (Layout.lasting_pool hx)

end PointCode

namespace Graft

variable {G : Graft} {labels : Label → Option Frame} {named : Label → Prop}
  {P : Nat → Frame → Frame → Prop} {f' : Frame} {start index : Nat} {p : SuspendPoint}
  {here : Label} {piece : Piece} {kind : CallKind} {m : MethodRef}
  (q : PointCode G.layout G.first G.layout.shared p (.invoke kind m) here piece)

/-- Where locals are the same and nothing is uninitialized, only the stack differs. -/
theorem frame_eq {f : Frame} (hlocals : f'.locals = f.locals)
    (hinitialized : ∀ t ∈ f'.stack, t.isUninitialized = false) :
    G.frame f' = (G.site labels f).frame G.layout.lasting f'.stack := by
  have hstack : f'.stack.map (·.moved G.place) = f'.stack := by
    exact (List.map_congr_left fun t ht => SlotType.moved_eq (hinitialized t ht)).trans (List.map_id _)
  rw [frame, types, hlocals, hstack]
  rfl

include q

/-- What is held at a suspend point has room there. -/
theorem room_held (hf : p.frame.WellFormed G.first) : (G.site labels p.frame).Room q.held :=
  room hf (List.subset_append_right ..) (G.size_eq ▸ q.held_fits G.ready)

/-- **Saving at a point.** -/
theorem goes_save (hf : p.frame.WellFormed G.first) (hinitialized : p.frame.hasUninitialized = false)
    (hloop : (G.site labels p.frame).Loops G.layout Layout.exitLoop q.held q.exits)
    (hresult : G.context.result = G.layout.plan.method.descriptor.result) :
    (G.site labels p.frame).Goes (some ((G.site labels p.frame).frame q.held []))
      (G.layout.save p q.leases q.exits) none := by
  have hroom : (G.site labels p.frame).Room q.held := room_held q hf
  obtain ⟨hsaves, hspilled⟩ := savedStack_saves q.leased (p.initialized_of hinitialized).2
  refine Site.goes_save hroom (List.subset_append_right ..) (fun v hv => ?_) (fun v hv => ?_) hloop
    hresult
  · obtain ⟨t, hsaves, hget⟩ := p.savedLocals_saves hf hinitialized hv
    have hkind : Frame.holdsKind v.kind t = true := holdsKind_of_ofSlot? hsaves.kind
    have hend : v.slot + v.kind.width ≤ G.first := by
      rw [← Frame.holdsKind_width hkind]
      exact hf.below hget
    have hpos := Holdings.kind_width_pos v.kind
    refine Site.storable (hend.trans first_le) ?_ hsaves.kind hsaves.initialized
    have htype : (G.site labels p.frame).types q.held v.slot =
        SlotTypes.ofLocals G.place p.frame.locals v.slot :=
      SlotTypes.beside_of_lt (show v.slot < G.first by omega)
    rw [htype, SlotTypes.ofLocals_eq hget, SlotType.moved_eq hsaves.initialized]
  · obtain ⟨t, hv'⟩ := hsaves v hv
    have hmem : v.holding ∈ q.held :=
      List.mem_append_left _ (hspilled ▸ List.mem_map_of_mem hv)
    exact Site.storable (hroom.fits.bounds _ hmem).2
      ((SlotTypes.beside_of_mem hroom.fits hmem).trans hv'.type_eq) hv'.kind hv'.initialized

/-- The stack is put into variables. -/
theorem goes_spill (hf : p.frame.WellFormed G.first) :
    (G.site labels p.frame).Goes
      (some ((G.site labels p.frame).frame G.layout.lasting p.stackToSave.reverse))
      (spillStack q.leases) (some ((G.site labels p.frame).frame q.held [])) := by
  have hroom : (G.site labels p.frame).Room G.layout.lasting := room_lasting hf
  obtain ⟨hspill, -⟩ := Site.goes_spill hroom q.leased (room_held q hf).fits (p.stackToSave_ne_top hf)
    (List.forall_mem_nil _)
  rwa [List.append_nil] at hspill

/-- Before a call the stack is put into variables and back; there is a label in between. -/
theorem goes_beforeCall (hf : p.frame.WellFormed G.first)
    (hresume : labels q.resume = some ((G.site labels p.frame).frame q.held [])) :
    (G.site labels p.frame).Goes
      (some ((G.site labels p.frame).frame G.layout.lasting p.stackToSave.reverse))
      (spillStack q.leases ++ [.label q.resume] ++ reloadStack q.leases)
      (some ((G.site labels p.frame).frame q.held p.stackToSave.reverse)) := by
  have hreload : (G.site labels p.frame).Goes (some ((G.site labels p.frame).frame q.held []))
      (reloadStack q.leases)
      (some ((G.site labels p.frame).frame q.held (p.stackToSave.reverse ++ []))) :=
    Site.goes_reload (room_held q hf) q.leased (List.subset_append_left ..) (p.stackToSave_ne_top hf)
  rw [List.append_nil] at hreload
  exact ((goes_spill q hf).append (.pass (room_held q hf) hresume nofun)).append hreload

/-- After a call the point is saved if the continuation is in the mode for that. -/
theorem goes_afterCall {after : Label} {stack : List SlotType} (hf : p.frame.WellFormed G.first)
    (hinitialized : p.frame.hasUninitialized = false) (hkind : p.kind = .invoke)
    (hstack : ∀ t ∈ stack, t ≠ .top)
    (hcalled : stack = Frame.pushResult m.descriptor.result
      (p.frame.stack.drop (m.descriptor.parameters.length + if kind = .static then 0 else 1)))
    (hresult : G.context.result = G.layout.plan.method.descriptor.result)
    (hafter : labels after = some ((G.site labels p.frame).frame G.layout.lasting stack))
    (hloop : (G.site labels p.frame).Loops G.layout Layout.exitLoop q.held q.exits) :
    (G.site labels p.frame).Goes (some ((G.site labels p.frame).frame q.held stack))
      (G.layout.unlessMode .saving after ++
        G.layout.announce s!"saving continuation point {p.id}" ++
        clearAfterCall (.invoke kind m) p.stackToSave ++ G.layout.save p q.leases q.exits ++
        [.label after])
      (some ((G.site labels p.frame).frame G.layout.lasting stack)) := by
  have hroom : (G.site labels p.frame).Room q.held := room_held q hf
  have hlasting : G.layout.lasting ⊆ q.held := List.subset_append_right ..
  have hawaited : ((G.site labels p.frame).frame q.held stack).Awaited labels G.size after :=
    ⟨_, hafter, hroom.frame_suits hlasting hstack⟩
  have hclears : OnStack G.context (((G.site labels p.frame).types q.held).locals G.size)
      (Frame.pushResult m.descriptor.result (p.frame.stack.drop
        (m.descriptor.parameters.length + if kind = .static then 0 else 1)))
      (clearAfterCall (.invoke kind m) p.frame.stack.reverse) [] :=
    onStack_clearAfterCall hf.stack
  rw [← hcalled] at hclears
  rw [show p.stackToSave = p.frame.stack.reverse by rw [SuspendPoint.stackToSave, hkind]]
  exact .append (.append (.append (.append (Site.goes_unlessMode hroom
    (hlasting G.layout.continuation_lasting) .saving hawaited) (Site.goes_announce hroom _))
    (.onStack hroom hclears)) (goes_save q hf hinitialized hloop hresult))
    (.arrive (room_lasting hf) hafter fun _ h => by cases h)

/-- **A call** that may suspend. Execution may go on before it, with the stack still in variables. -/
theorem typed_invoke {after : Label}
    (hpiece : piece.inPlace = G.layout.invokeSequence p (.invoke kind m) q.leases q.resume after q.exits)
    (hkind : p.kind = .invoke) (hf : p.frame.WellFormed G.first)
    (hinitialized : p.frame.hasUninitialized = false)
    (hok : p.frame.step G.context index (.invoke kind m) = .ok f')
    (hresult : G.context.result = G.layout.plan.method.descriptor.result)
    (hresume : labels q.resume = some ((G.site labels p.frame).frame q.held []))
    (hafter : labels after = some (G.frame f'))
    (hloop : (G.site labels p.frame).Loops G.layout Layout.exitLoop q.held q.exits)
    (hP : ∀ n, n < piece.inPlace.length →
      G.Permits P p.frame f' (n = 2 * p.stackToSave.length + 1) (start + n)) :
    Typed G.context G.size labels named P start (some (G.frame p.frame)) piece.inPlace
      (some (G.frame f')) := by
  obtain ⟨hf', hstep⟩ := Frame.step_invoke hok hinitialized
  have hback : p.stackToSave.reverse = p.frame.stack := by
    rw [SuspendPoint.stackToSave, hkind, List.reverse_reverse]
  have hstack : ∀ t ∈ p.frame.stack, t.isUninitialized = false := fun t ht =>
    (p.initialized_of hinitialized).2 t (List.mem_reverse.mp (hback ▸ ht))
  have hstack' : ∀ t ∈ f'.stack, t ≠ .top ∧ t.isUninitialized = false := by
    intro t ht
    rw [hf', Frame.pushResult] at ht
    rcases List.mem_append.mp ht with ht | ht
    · obtain ⟨type, -, rfl⟩ := Option.map_eq_some_iff.mp (Option.mem_toList.mp ht)
      cases type with
      | base b => cases b <;> exact ⟨fun h => (by cases h), rfl⟩
      | ref r => exact ⟨fun h => (by cases h), rfl⟩
    · exact ⟨hf.stack t (List.mem_of_mem_drop ht), hstack t (List.mem_of_mem_drop ht)⟩
  have hframe : G.frame p.frame = (G.site labels p.frame).frame G.layout.lasting p.frame.stack :=
    frame_eq rfl hstack
  have hframe' : G.frame f' = (G.site labels p.frame).frame G.layout.lasting f'.stack :=
    frame_eq (by rw [hf']) fun t ht => (hstack' t ht).2
  -- three parts: operands are spilled and reloaded, the call itself, and what is done after it
  have hbefore := goes_beforeCall q hf hresume
  rw [hback, ← hframe] at hbefore
  have hafterwards := goes_afterCall q hf hinitialized hkind (fun t ht => (hstack' t ht).1)
    (by rw [hf']) hresult (hafter.trans (congrArg some hframe')) hloop
  rw [← hframe'] at hafterwards
  have hroom : (G.site labels p.frame).Room q.held := room_held q hf
  have hguard : Frame.LocalsSuit id G.size (((G.site labels p.frame).types q.held).locals G.size)
      (G.frame p.frame).locals := hroom.guard.locals
  have hsuited : Frame.Suited G.place p.frame.stack p.frame.stack :=
    List.forall₂_same.mpr fun t ht => ⟨hf.stack t ht, .same fun c n heq => by
      have := hstack t ht
      rw [heq] at this
      cases this⟩
  have hlength : (spillStack q.leases ++ [Instruction.label q.resume] ++ reloadStack q.leases).length =
      2 * p.stackToSave.length + 1 := by
    simp only [List.length_append, spillStack, reloadStack, List.length_map, List.length_reverse,
      List.length_singleton, q.leased.length_eq]
    omega
  have hsequence : piece.inPlace =
      (spillStack q.leases ++ [.label q.resume] ++ reloadStack q.leases) ++ .invoke kind m ::
        (G.layout.unlessMode .saving after ++
          G.layout.announce s!"saving continuation point {p.id}" ++
          clearAfterCall (.invoke kind m) p.stackToSave ++ G.layout.save p q.leases q.exits ++
          [.label after]) := by
    rw [hpiece, Layout.invokeSequence]
    simp only [List.append_assoc, List.cons_append, List.nil_append]
  rw [hsequence] at hP ⊢
  rw [List.length_append, List.length_cons, hlength] at hP
  refine .append (hbefore.typed start fun n g g' hn => (hP n (by omega)).guarded (by omega)) ?_
  rw [hlength]
  refine .step rfl rfl (hstep _ _) (hP _ (by omega) _ _ hguard (.inl hguard) fun _ =>
    site_suits hsuited) (List.forall_mem_nil _) (hafterwards.typed _ fun n g g' hn => ?_)
  rw [show ∀ k, start + (2 * p.stackToSave.length + 1) + 1 + k =
    start + (2 * p.stackToSave.length + 1 + (k + 1)) by omega]
  exact (hP _ (by omega)).guarded (by omega)

/-- **A call of `suspend`** is not made. Execution may go on after it. -/
theorem typed_suspend
    (hpiece : piece.inPlace = G.layout.suspendSequence p q.leases q.resume q.exits)
    (hkind : p.kind = .suspend) {t : SlotType} {rest : List SlotType}
    (hstack : p.frame.stack = t :: rest) (ht : t.IsObject) (hf' : f' = ⟨p.frame.locals, rest⟩)
    (hf : p.frame.WellFormed G.first) (hinitialized : p.frame.hasUninitialized = false)
    (hresult : G.context.result = G.layout.plan.method.descriptor.result)
    (hresume : labels q.resume = some (G.frame f'))
    (hloop : (G.site labels p.frame).Loops G.layout Layout.exitLoop q.held q.exits)
    (hP : ∀ n, n < piece.inPlace.length → G.Permits P p.frame f' False (start + n)) :
    Typed G.context G.size labels named P start (some (G.frame p.frame)) piece.inPlace
      (some (G.frame f')) := by
  have hback : p.stackToSave.reverse = rest := by
    rw [SuspendPoint.stackToSave, hkind, hstack]
    exact List.reverse_reverse _
  have hrest : ∀ u ∈ rest, u.isUninitialized = false := fun u hu =>
    (p.initialized_of hinitialized).2 u (List.mem_reverse.mp (hback ▸ hu))
  have hinitialized' : t.isUninitialized = false := by
    cases t <;> first | rfl | cases ht
  have hframe : G.frame p.frame = (G.site labels p.frame).frame G.layout.lasting (t :: rest) := by
    rw [← hstack]
    refine frame_eq rfl ?_
    rw [hstack]
    exact List.forall_mem_cons.mpr ⟨hinitialized', hrest⟩
  have hframe' : G.frame f' = (G.site labels p.frame).frame G.layout.lasting rest := by
    subst hf'
    exact frame_eq (f := p.frame) rfl hrest
  have hlasting : G.layout.lasting ⊆ q.held := List.subset_append_right ..
  have hroom : (G.site labels p.frame).Room q.held := room_held q hf
  have hpop : ∀ index, ((G.site labels p.frame).frame G.layout.lasting (t :: rest)).step G.context index
      (.stack .pop) = .ok ((G.site labels p.frame).frame G.layout.lasting rest) := by
    intro index
    cases t <;> first | rfl | cases ht
  have hspill : (G.site labels p.frame).Goes
      (some ((G.site labels p.frame).frame G.layout.lasting p.stackToSave.reverse))
      (spillStack q.leases) (some ((G.site labels p.frame).frame q.held [])) := goes_spill q hf
  rw [hback] at hspill
  have hgoes : (G.site labels p.frame).Goes (some (G.frame p.frame)) piece.inPlace
      (some (G.frame f')) := by
    rw [hpiece, hframe, hframe']
    exact .append (.append (.append (.append (.append (.plain (room_lasting hf) ⟨rfl, rfl, rfl⟩ hpop)
      hspill) (Site.goes_setMode hroom (hlasting G.layout.continuation_lasting) _))
      (Site.goes_announce hroom _)) (goes_save q hf hinitialized hloop hresult))
      (.arrive (room_lasting hf) (hresume.trans (congrArg some hframe')) fun _ h => by cases h)
  exact hgoes.typed start fun n g g' hn => (hP n hn).guarded id

end Graft

end Resumption
