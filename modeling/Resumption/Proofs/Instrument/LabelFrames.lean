import Resumption.Proofs.Instrument.Places

/-!
# Frames for the labels of generated code

Every block of generated code places a few labels, and decides on the frames that are awaited there.

* **`LabelFrames`** is a table of such frames. It covers a block if it has the labels that the block
  places, and `LabelFrames.holds_awaited` says that tables can be put together if no label is placed
  twice.
* **`Graft.restoring`** is where restore blocks stand.
* **`Grafted.exists_frames`**: whatever stands in place of an instruction, with its restore block, has
  frames for its labels, and control goes through it as through the instruction itself.
-/

namespace Resumption

/-- Labels, each with the frame that is awaited at it, or none if control never comes there. -/
abbrev LabelFrames := List (Label × Option Frame)

namespace LabelFrames

/-- Is the table one of frames for the labels that a block places? -/
structure Covers (size : Nat) (t : LabelFrames) (is : List Instruction) : Prop where
  /-- there is an entry for each label that is placed -/
  labels : t.map Prod.fst = placedBy is
  /-- the frames have a shape that is known -/
  wellFormed : ∀ l f, (l, some f) ∈ t → f.WellFormed size

/-- Are the frames of the table those that are awaited? -/
def Holds (t : LabelFrames) (labels : Label → Option Frame) : Prop := ∀ x ∈ t, labels x.1 = x.2

variable {size : Nat} {t t' : LabelFrames} {is js : List Instruction} {labels : Label → Option Frame}
  {l : Label} {f : Option Frame}

theorem Covers.append (h : t.Covers size is) (h' : Covers size t' js) :
    Covers size (t ++ t') (is ++ js) where
  labels := by rw [List.map_append, placedBy_append, h.labels, h'.labels]
  wellFormed l f hmem := (List.mem_append.mp hmem).elim (h.wellFormed l f) (h'.wellFormed l f)

theorem Covers.nil (h : placedBy is = []) : Covers size [] is := ⟨h.symm, nofun⟩

theorem Covers.of_labels (h : t.Covers size is) (heq : placedBy is = placedBy js) :
    t.Covers size js := ⟨h.labels.trans heq, h.wellFormed⟩

theorem holds_append : Holds (t ++ t') labels ↔ t.Holds labels ∧ t'.Holds labels :=
  List.forall_mem_append

theorem holds_singleton : Holds [(l, f)] labels ↔ labels l = f := by
  simp [Holds]

theorem holds_cons : Holds ((l, f) :: t) labels ↔ labels l = f ∧ t.Holds labels :=
  List.forall_mem_cons

/-- A label, its frame, and nothing else. -/
theorem Covers.singleton (h : placedBy is = [l]) (hf : ∀ g, f = some g → g.WellFormed size) :
    Covers size [(l, f)] is := by
  refine ⟨h.symm, fun l' g hmem => ?_⟩
  cases List.mem_singleton.mp hmem
  exact hf g rfl

/-- The frames of a table. -/
def awaited (t : LabelFrames) (l : Label) : Option Frame := (t.lookup l).join

/-- If no label is there twice, all its frames are awaited. -/
theorem holds_awaited (h : (t.map Prod.fst).Nodup) : t.Holds t.awaited := by
  have hlookup : ∀ x ∈ t, t.lookup x.1 = some x.2 := by
    induction t with
    | nil => exact nofun
    | cons y t ih =>
      rw [List.map_cons, List.nodup_cons] at h
      refine List.forall_mem_cons.mpr ⟨by rw [List.lookup_cons, beq_self_eq_true], fun x hx => ?_⟩
      have hne : (x.1 == y.1) = false :=
        beq_eq_false_iff_ne.mpr fun heq => h.1 (List.mem_map.mpr ⟨x, hx, heq⟩)
      rw [List.lookup_cons, hne]
      exact ih h.2 x hx
  intro x hx
  rw [awaited, hlookup x hx, Option.join_some]

/-- A frame that is awaited is one of the table. -/
theorem mem_of_awaited {g : Frame} (h : t.awaited l = some g) : (l, some g) ∈ t := by
  have hlookup : t.lookup l = some (some g) := by
    rw [awaited] at h
    cases hl : t.lookup l with
    | none => rw [hl] at h; cases h
    | some f => rw [hl, Option.join_some] at h; rw [h]
  obtain ⟨before, after, rfl, -⟩ := List.lookup_eq_some_iff.mp hlookup
  simp

end LabelFrames

open LabelFrames

/-! ## Loops -/

/-- The labels of a loop over monitors. -/
theorem IsMonitorLoop.exists_frames {l : Layout}
    {loop : MonitorVariables → Label → Label → List Instruction} {code : List Instruction}
    (h : IsMonitorLoop l loop code)
    (hloop : ∀ m start stop, placedBy (loop m start stop) = [start, stop]) {s : Site}
    {held : Holdings} (room : s.Room held)
    (hfits : ∀ m, l.monitors = some m → (held.looping m).Fits s.first s.size) :
    ∃ t : LabelFrames, t.Covers s.size code ∧ ∀ labels, t.Holds labels →
      ({ s with labels } : Site).Loops l loop held code := by
  simp only [IsMonitorLoop, Site.Loops] at h ⊢
  cases hm : l.monitors with
  | none =>
    rw [hm] at h
    exact ⟨[], .nil (by rw [h]; rfl), fun _ _ => h⟩
  | some m =>
    rw [hm] at h
    obtain ⟨start, stop, rfl⟩ := h
    have hframe : (s.frame (held.looping m) []).WellFormed s.size :=
      (room.looping (hfits m hm)).2.2.frame_wellFormed (List.forall_mem_nil _)
    refine ⟨[(start, some (s.frame (held.looping m) [])), (stop, some (s.frame (held.looping m) []))],
      ⟨(hloop m start stop).symm, fun l f hmem => ?_⟩, fun labels hlabels => ?_⟩
    · simp only [List.mem_cons, Prod.mk.injEq, Option.some.injEq, List.not_mem_nil, or_false] at hmem
      rcases hmem with ⟨-, rfl⟩ | ⟨-, rfl⟩ <;> exact hframe
    · obtain ⟨hstart, hstop⟩ := holds_cons.mp hlabels
      exact ⟨start, stop, rfl, hstart, holds_singleton.mp hstop, hfits m hm⟩

/-! ## Restoring -/

namespace Graft

variable {G : Graft} {labels : Label → Option Frame}

/-- Where restore blocks stand. All that is known is in the variables that are in use. -/
def restoring (G : Graft) (labels : Label → Option Frame) : Site where
  context := G.context
  size := G.size
  first := 0
  base := fun _ => .top
  guard := Holdings.typeAt G.layout.lasting
  labels

theorem restoring_types (held : Holdings) : (G.restoring labels).types held = held.typeAt :=
  SlotTypes.beside_zero _ _

theorem room_restoring : (G.restoring labels).Room (G.layout.heldState :: G.layout.lasting) where
  fits := (fits.subset Layout.state_pool).of_le (Nat.zero_le _)
  whole_base := fun _ hslot => absurd hslot (Nat.not_lt_zero _)
  first_le := Nat.zero_le _
  guard := by
    rw [restoring_types]
    exact (fits.subset Layout.state_pool).suits (List.subset_cons_self ..)

variable {p : SuspendPoint} {here : Label} {piece : Piece} {kind : CallKind} {m : MethodRef}
  (q : PointCode G.layout G.first G.layout.shared p (.invoke kind m) here piece)

/-- What was restored suits the frame that is awaited where execution goes on. -/
theorem restored_suits (hf : p.frame.WellFormed G.first)
    (hinitialized : p.frame.hasUninitialized = false) {held : Holdings} {stack : List SlotType}
    (hsub : held ⊆ q.held) (hstack : ∀ t ∈ stack, t ≠ .top) :
    ((G.restoring labels).frame (p.holdings G.layout q.leases) stack).Suits id G.size
      ((G.site labels p.frame).frame held stack) := by
  have hfits : (p.holdings G.layout q.leases).Fits 0 0xFFFF := by
    have hseparate : Separate G.first ([] ++ (q.leases.filterMap id ++ G.layout.shared)) := q.separate
    have hnone : ∀ x ∈ ([] : Holdings), Frame.holdsKind x.kind x.type = true :=
      List.forall_mem_nil _
    exact q.fits G.ready (Nat.le_of_lt_succ G.first_lt) hf hinitialized hseparate rfl hnone
  refine Frame.of_suits ?_ hstack
  rw [restoring_types]
  refine hfits.suits_of fun slot => ?_
  have htypes : (G.site labels p.frame).types held =
      .beside G.first (.ofLocals G.place p.frame.locals) held := rfl
  rw [htypes, SlotTypes.beside]
  split
  · cases hget : p.frame.locals[slot]? with
    | none =>
      rw [SlotTypes.ofLocals, hget]
      exact .inl rfl
    | some t =>
      rw [SlotTypes.ofLocals_eq hget]
      rcases (SuspendPoint.usable_types hf hinitialized).2 slot t hget with rfl | ⟨x, hx, hslot, htype⟩
      · exact .inl rfl
      · rw [SlotType.moved_eq ((p.initialized_of hinitialized).1 t (List.mem_of_getElem? hget))]
        exact .inr ⟨x, List.mem_append_left _ hx, hslot, htype⟩
  · refine (held.typeAt_cases slot).imp_right fun hheld => ?_
    obtain ⟨x, hx, hslot, htype⟩ := hheld
    refine ⟨x, ?_, hslot, htype⟩
    have hshared : q.held ⊆ .spilled p.stackToSave q.leases ++ G.layout.heldState :: G.layout.lasting :=
      List.append_subset.mpr ⟨List.subset_append_left .., fun _ hx =>
        List.mem_append_right _ (List.mem_cons_of_mem _ hx)⟩
    exact List.mem_append_right _ (hshared (hsub hx))

include q

/-- The restore block, where the label at which execution goes on awaits what was restored. -/
theorem typed_restoreBlock (hf : p.frame.WellFormed G.first)
    (hinitialized : p.frame.hasUninitialized = false) {held : Holdings} (hsub : held ⊆ q.held)
    (hhere : labels here =
      some ((G.restoring labels).frame (G.layout.heldState :: G.layout.lasting) []))
    (hresume : labels q.resume = some ((G.site labels p.frame).frame held p.stackBack))
    {named : Label → Prop} {P : Nat → Frame → Frame → Prop} {start : Nat}
    (hP : ∀ n g g', n < piece.block.length →
      Covered G.size (Holdings.typeAt G.layout.lasting) (start + n) g g' → P (start + n) g g') :
    Typed G.context G.size labels named P start none piece.block none := by
  have hstack : ∀ t ∈ p.stackBack, t ≠ .top := by
    intro t ht
    rw [SuspendPoint.stackBack] at ht
    split at ht
    · cases ht
    · exact p.stackToSave_ne_top hf t (List.mem_reverse.mp ht)
  exact (Site.goes_restoreBlock q rfl G.size_eq G.ready (Nat.le_of_lt_succ G.first_lt) hf
    hinitialized room_restoring hhere
    ⟨_, hresume, restored_suits q hf hinitialized hsub hstack⟩).typed start hP

end Graft

/-! ## What stands in place of an instruction -/

/-- An end at which less is known. -/
theorem Typed.relax {context : MethodContext} {size : Nat} {labels : Label → Option Frame}
    {named : Label → Prop} {P : Nat → Frame → Frame → Prop} {index : Nat} {f : Option Frame}
    {is : List Instruction} {g g' : Frame} (h : Typed context size labels named P index f is (some g))
    (hg : g.Suits id size g') (hg' : g'.WellFormed size) :
    Typed context size labels named P index f is (some g') := by
  have hrelaxed : Typed context size labels named P index f (is ++ []) (some g') :=
    h.append (.weaken hg' hg (.nil _ _))
  rwa [List.append_nil] at hrelaxed

/-- Frames for the labels of a piece and its restore block, with which control goes through them. -/
structure Carries (e : Expansion) (G : Graft) (index : Nat) (i : Instruction) (piece : Piece)
    (here there : LabelFrames) : Prop where
  /-- labels in the place of the instruction -/
  here_covers : here.Covers G.size piece.inPlace
  /-- labels of the restore block -/
  there_covers : there.Covers G.size piece.block
  /-- a label of the body keeps its frame -/
  label : ∀ {labels l}, here.Holds labels → i = .label l →
    labels l = (G.plan.frameAt index).map G.frame
  /-- the restore block begins with its frame -/
  restore : ∀ {labels l}, there.Holds labels → l ∈ placedBy piece.block →
    labels l = some ((G.restoring labels).frame (G.layout.heldState :: G.layout.lasting) [])
  /-- what stands in the place of the instruction can be typed -/
  inPlace : ∀ {labels named P}, here.Holds labels → G.Knows labels →
    (∀ j ∈ G.plan.code.instructions, ∀ l ∈ j.targets, named l) →
    (∀ n f f', n < piece.inPlace.length → G.plan.frameAt index = some f →
      f.step G.context index i = .ok f' →
      G.Permits P f f' (G.plan.Keeps G.layout.settings index i ∧ n = G.plan.offset index)
        (e.position index + n)) →
    Typed G.context G.size labels named P (e.position index) (G.entering index) piece.inPlace
      (G.entering (index + 1))
  /-- the restore block can be typed -/
  block : ∀ {labels named P start}, here.Holds labels → there.Holds labels →
    (∀ n g g', n < piece.block.length →
      Covered G.size (Holdings.typeAt G.layout.lasting) (start + n) g g' → P (start + n) g g') →
    Typed G.context G.size labels named P start none piece.block none

theorem Graft.Permits.mono {G : Graft} {P : Nat → Frame → Frame → Prop} {f f' : Frame}
    {kept kept' : Prop} {index : Nat} (h : G.Permits P f f' kept index) (himp : kept → kept') :
    G.Permits P f f' kept' index := fun g g' hg hg' hkept => h g g' hg hg' fun hk => hkept (himp hk)

namespace Grafted

variable {h : Hierarchy} {owner : ClassName} {m : Method} {e : Expansion} {G : Graft}
  (on : Grafted h owner m e G) {index : Nat} {i : Instruction} {f : Frame} {piece : Piece}

include on

/-- **Points.** -/
theorem exists_frames_point {p : SuspendPoint} {here : Label}
    (hp : G.plan.points.find? (·.index = index) = some p)
    (q : PointCode G.layout G.first G.layout.shared p i here piece)
    (hi : G.plan.code.instructions[index]? = some i) :
    ∃ t t' : LabelFrames, Carries e G index i piece t t' := by
  obtain ⟨hmem, hindex, hframe, kind, r, hcall, hstatic, hkind⟩ := on.point hp
  obtain rfl := Option.some.inj (hi.symm.trans hcall)
  have hf := on.wellFormed hframe
  have hinitialized := on.proper.initialized p hmem
  obtain ⟨f', hstep, -, hnext, -⟩ := on.step hframe hi
  obtain ⟨f'', hframe'', hsuits⟩ := hnext rfl
  have hf'' := on.wellFormed hframe''
  have hentering : G.entering index = some (G.frame p.frame) :=
    on.entering_of_frame hframe fun l hl => by
      cases hi.symm.trans hl
  have hentering' : G.entering (index + 1) = some (G.frame f'') := by
    rw [Graft.entering_next (by rw [hframe]; rfl) hi rfl, hframe'', Option.map_some]
  have hroom : (G.site (fun _ => none) p.frame).Room q.held := Graft.room_held q hf
  -- first the labels that both kinds of points have: those of the loop over monitors and that of
  -- the restore block
  obtain ⟨t₀, hcovers₀, hloops₀⟩ := q.exits_loop.exists_frames Layout.placedBy_exitLoop hroom
    fun v hv => by
      have hfits := q.looping_fits G.ready hv
      rw [← G.size_eq] at hfits
      exact hfits
  have hblock : placedBy piece.block = [here] := by
    rw [q.block_eq]
    exact Layout.placedBy_restoreBlock q.restores_locals.straight q.restores_stack.straight
  have hthere : ∀ g, some ((G.restoring fun _ => none).frame (G.layout.heldState :: G.layout.lasting) []) =
      some g → g.WellFormed G.size := by
    rintro g ⟨⟩
    exact Graft.room_restoring.frame_wellFormed (List.forall_mem_nil _)
  have hrestore : ∀ {labels l}, Holds [(here, some ((G.restoring fun _ => none).frame
      (G.layout.heldState :: G.layout.lasting) []))] labels → l ∈ placedBy piece.block →
      labels l = some ((G.restoring labels).frame (G.layout.heldState :: G.layout.lasting) []) := by
    intro labels l hthere hl
    rw [hblock] at hl
    exact List.mem_singleton.mp hl ▸ holds_singleton.mp hthere
  have hinPlace := q.inPlace_eq
  rw [IsSequence] at hinPlace
  have hf' : f'.WellFormed G.first := Frame.step_wellFormed hf hstep
  have hlast : ∀ g, some (G.frame f') = some g → g.WellFormed G.size := by
    rintro g ⟨⟩
    exact Graft.frame_wellFormed hf'
  split at hinPlace
  · -- a call of `suspend`
    rename_i hsuspend
    have hr : r = Interface.Continuation.suspend := by
      rw [hsuspend] at hkind
      split at hkind
      · exact of_decide_eq_true ‹_›
      · cases hkind
    subst hr
    obtain ⟨t, rest, hstack, ht⟩ := Frame.invoke_receiver hstep rfl (by decide) (hstatic hsuspend)
    obtain rfl : f' = ⟨p.frame.locals, rest⟩ := by
      rw [(Frame.step_invoke hstep hinitialized).1, hstack, if_neg (hstatic hsuspend)]
      rfl
    have hback : p.stackBack = rest := by
      rw [SuspendPoint.stackBack, hsuspend, SuspendPoint.stackToSave, hsuspend, hstack]
      exact List.reverse_reverse _
    have hrest : ∀ u ∈ rest, u.isUninitialized = false := fun u hu => by
      refine (p.initialized_of hinitialized).2 u ?_
      rw [SuspendPoint.stackToSave, hsuspend, hstack]
      exact List.mem_reverse.mpr hu
    refine ⟨t₀ ++ [(q.resume, some (G.frame ⟨p.frame.locals, rest⟩))],
      [(here, some ((G.restoring fun _ => none).frame (G.layout.heldState :: G.layout.lasting) []))],
      ?_, .singleton hblock hthere, fun _ h => (by cases h), hrestore, ?_, ?_⟩
    · have hresume : Covers G.size [(q.resume, some (G.frame ⟨p.frame.locals, rest⟩))]
          [.label q.resume] := .singleton rfl hlast
      refine (hcovers₀.append hresume).of_labels ?_
      rw [hinPlace, Layout.placedBy_suspendSequence, placedBy_append]
      rfl
    · intro labels named P hhere _ _ hP
      obtain ⟨hloops, hresume⟩ := holds_append.mp hhere
      rw [hentering, hentering']
      refine Typed.relax ?_ (Graft.frame_mono hsuits) (Graft.frame_wellFormed hf'')
      refine Graft.typed_suspend q hinPlace hsuspend hstack ht rfl hf hinitialized on.result_eq
        (holds_singleton.mp hresume) (hloops₀ labels hloops) fun n hn =>
        (hP n _ _ hn hframe hstep).mono fun hkeeps => ?_
      cases hsuspend.symm.trans (hkeeps.1.not_suspend p hmem hindex)
    · intro labels named P start hhere hthere hP
      refine Graft.typed_restoreBlock q hf hinitialized (List.subset_append_right _ G.layout.lasting)
        (holds_singleton.mp hthere) ?_ hP
      rw [holds_singleton.mp (holds_append.mp hhere).2, hback]
      exact congrArg some (Graft.frame_eq (f := p.frame) rfl hrest)
  · -- a call that may suspend
    rename_i hinvoke
    obtain ⟨after, hinPlace⟩ := hinPlace
    refine ⟨(q.resume, some ((G.site (fun _ => none) p.frame).frame q.held [])) ::
        (t₀ ++ [(after, some (G.frame f'))]),
      [(here, some ((G.restoring fun _ => none).frame (G.layout.heldState :: G.layout.lasting) []))],
      ?_, .singleton hblock hthere, fun _ h => (by cases h), hrestore, ?_, ?_⟩
    · have hresume : Covers G.size
          [(q.resume, some ((G.site (fun _ => none) p.frame).frame q.held []))] [.label q.resume] := by
        refine .singleton rfl ?_
        rintro g ⟨⟩
        exact hroom.frame_wellFormed (List.forall_mem_nil _)
      have hafter : Covers G.size [(after, some (G.frame f'))] [.label after] := .singleton rfl hlast
      refine (hresume.append (hcovers₀.append hafter)).of_labels ?_
      rw [hinPlace, Layout.placedBy_invokeSequence, placedBy_append, placedBy_append]
      rfl
    · intro labels named P hhere _ _ hP
      obtain ⟨hresume, hhere⟩ := holds_cons.mp hhere
      obtain ⟨hloops, hafter⟩ := holds_append.mp hhere
      rw [hentering, hentering']
      refine Typed.relax ?_ (Graft.frame_mono hsuits) (Graft.frame_wellFormed hf'')
      refine Graft.typed_invoke q hinPlace hinvoke hf hinitialized hstep on.result_eq hresume
        (holds_singleton.mp hafter) (hloops₀ labels hloops) fun n hn =>
        (hP n _ _ hn hframe hstep).mono fun hkeeps => ?_
      rw [hkeeps.2, MethodPlan.offset, hp]
      simp only [hinvoke]
    · intro labels named P start hhere hthere hP
      refine Graft.typed_restoreBlock q hf hinitialized (List.Subset.refl _)
        (holds_singleton.mp hthere) ?_ hP
      rw [(holds_cons.mp hhere).1, SuspendPoint.stackBack, hinvoke]
      rfl

/-- What control never comes to. -/
theorem typed_keep_dead {labels : Label → Option Frame} {named : Label → Prop}
    {P : Nat → Frame → Frame → Prop} {start : Nat} (hi : G.plan.code.instructions[index]? = some i)
    (hplaced : i.placed? = none) (hnamed : ∀ l ∈ i.targets, named l) :
    Typed G.context G.size labels named P start none (G.layout.keep i) none := by
  have hextent : i.localExtent ≤ G.size :=
    (on.bounds.1.extent i (Array.mem_of_getElem? hi)).trans Graft.first_le
  have hlease : ∀ lease ∈ G.layout.shared, lease.slot + lease.kind.width ≤ G.size := by
    intro lease hlease
    have := G.ready.separate.room lease hlease
    rw [G.size_eq]
    omega
  have hkeep : ∀ j ∈ G.layout.keep i, j.localExtent ≤ G.size ∧ ∀ l ∈ j.targets, named l := by
    have hsame : ∀ j ∈ [i], j.localExtent ≤ G.size ∧ ∀ l ∈ j.targets, named l := fun j hj =>
      List.mem_singleton.mp hj ▸ ⟨hextent, hnamed⟩
    have hrecord : ∀ v record, G.layout.monitors = some v →
        ∀ j ∈ Layout.recordMonitor v i record, j.localExtent ≤ G.size ∧ ∀ l ∈ j.targets, named l := by
      intro v record hv
      have hmonitor := hlease v.monitor (by rw [Layout.shared, hv]; simp)
      have hlockState := hlease v.lockState (G.layout.lockState_mem hv)
      have hnone : ∀ l ∈ ([] : List Label), named l := List.forall_mem_nil _
      simp only [Layout.recordMonitor, List.forall_mem_cons]
      exact ⟨⟨Nat.zero_le _, hnone⟩, ⟨hmonitor, hnone⟩, ⟨hextent, hnamed⟩, ⟨hlockState, hnone⟩,
        ⟨hmonitor, hnone⟩, ⟨Nat.zero_le _, hnone⟩, List.forall_mem_nil _⟩
    rw [Layout.keep.eq_def]
    split
    · split
      · exact hsame
      · exact List.forall_mem_nil _
    · exact hrecord _ _ ‹_›
    · exact hrecord _ _ ‹_›
    · exact hsame
  refine Graft.typed_dead ?_ (fun j hj => (hkeep j hj).1) fun j hj => (hkeep j hj).2
  have hnone := G.layout.placedBy_keep i
  rw [hplaced] at hnone
  exact List.filterMap_eq_nil_iff.mp hnone

/-- What control comes to, and is kept as it is. -/
theorem typed_keep_same {labels : Label → Option Frame} {named : Label → Prop}
    {P : Nat → Frame → Frame → Prop} (hi : G.plan.code.instructions[index]? = some i)
    (hplaced : i.placed? = none) (hf : G.plan.frameAt index = some f) (hknows : G.Knows labels)
    (hplace : G.place index = e.position index)
    (hP : ∀ f', f.step G.context index i = .ok f' → G.Permits P f f' True (e.position index)) :
    Typed G.context G.size labels named P (e.position index) (some (G.frame f)) [i]
      (G.entering (index + 1)) := by
  obtain ⟨f', hstep, htargets, hnext, -⟩ := on.step hf hi
  have hawaited : ∀ l ∈ i.targets, (G.frame f').Awaited labels G.size l := by
    intro l hl
    obtain ⟨target, htarget, g, hg, hsuits⟩ := htargets l hl
    exact ⟨G.frame g, by rw [hknows target l htarget, hg, Option.map_some], Graft.frame_mono hsuits⟩
  have hextent := on.bounds.1.extent i (Array.mem_of_getElem? hi)
  cases hfalls : i.fallsThrough with
  | true =>
    obtain ⟨g, hg, hsuits⟩ := hnext hfalls
    have htyped : Typed G.context G.size labels named P (e.position index) (some (G.frame f)) [i]
        (if i.fallsThrough then some (G.frame g) else none) :=
      Graft.typed_kept (on.wellFormed hf) hplaced hstep hextent hplace.symm hawaited
        (fun _ => ⟨on.wellFormed hg, hsuits⟩) (hP f' hstep)
    rw [Graft.entering_next (Option.isSome_iff_exists.mpr ⟨f, hf⟩) hi hfalls, hg, Option.map_some]
    rwa [if_pos hfalls] at htyped
  | false =>
    have hends : i.fallsThrough = true → f.WellFormed G.first ∧ f'.Suits id G.first f := fun h => by
      rw [hfalls] at h
      cases h
    have htyped : Typed G.context G.size labels named P (e.position index) (some (G.frame f)) [i]
        (if i.fallsThrough then some (G.frame f) else none) :=
      Graft.typed_kept (on.wellFormed hf) hplaced hstep hextent hplace.symm hawaited hends (hP f' hstep)
    rw [Graft.entering_left hi hfalls]
    rwa [if_neg (by rw [hfalls]; nofun)] at htyped

/-- What control comes to. -/
theorem typed_keep_reached {labels : Label → Option Frame} {named : Label → Prop}
    {P : Nat → Frame → Frame → Prop} (hnone : G.plan.points.find? (·.index = index) = none)
    (hi : G.plan.code.instructions[index]? = some i) (hplaced : i.placed? = none)
    (hf : G.plan.frameAt index = some f)
    (hpiece : e.pieces[index]? = some { inPlace := G.layout.keep i, block := [] })
    (hknows : G.Knows labels)
    (hP : ∀ n f f', n < (G.layout.keep i).length → G.plan.frameAt index = some f →
      f.step G.context index i = .ok f' →
      G.Permits P f f' (G.plan.Keeps G.layout.settings index i ∧ n = G.plan.offset index)
        (e.position index + n)) :
    Typed G.context G.size labels named P (e.position index) (some (G.frame f)) (G.layout.keep i)
      (G.entering (index + 1)) := by
  have hoffset := MethodPlan.offset_of_none hnone hi
  have hwellFormed := on.wellFormed hf
  rcases Layout.keep_cases on.monitors_eq hi with ⟨v, record, hmonitor, hv, hrecord, hkeep⟩ |
    ⟨hmonitor, ⟨n, rfl⟩, -, hkeep⟩ | ⟨hmonitor, hkeep⟩
  · obtain ⟨t, rest, hstack, ht⟩ := on.proper.monitors index f i hf hi hmonitor
    obtain ⟨f', hstep, -, hnext, -⟩ := on.step hf hi
    obtain ⟨g, hg, hsuits⟩ := hnext (by rcases hmonitor with rfl | rfl <;> rfl)
    have hf' : f' = ⟨f.locals, rest⟩ := by
      have hpop : ((Frame.popWhere SlotType.isReference f.stack).bind fun popped =>
          .ok { f with stack := popped.2 }) = .ok f' := by
        rcases hmonitor with rfl | rfl <;> exact hstep
      obtain ⟨⟨u, stack⟩, hreference, hok⟩ := Except.bind_ok.mp hpop
      cases hok
      have hstack' := (Frame.popWhere_eq hreference).1
      rw [hstack] at hstack'
      cases hstack'
      rfl
    rw [if_pos hmonitor] at hoffset
    rw [hkeep] at hP ⊢
    rw [Graft.entering_next (Option.isSome_iff_exists.mpr ⟨f, hf⟩) hi
      (by rcases hmonitor with rfl | rfl <;> rfl), hg, Option.map_some]
    refine Typed.relax ?_ (Graft.frame_mono hsuits) (Graft.frame_wellFormed (on.wellFormed hg))
    exact Graft.typed_monitor hv hmonitor hrecord hwellFormed hstack ht hf' fun n hn =>
      (hP n f f' hn hf hstep).mono fun hkeeps => hkeeps.2.trans hoffset
  · obtain ⟨f', hstep, -, hnext, -⟩ := on.step hf hi
    obtain ⟨g, hg, hsuits⟩ := hnext rfl
    cases hstep
    rw [hkeep, Graft.entering_next (Option.isSome_iff_exists.mpr ⟨f, hf⟩) hi rfl, hg, Option.map_some]
    exact .relax (.nil _ _) (Graft.frame_mono hsuits) (Graft.frame_wellFormed (on.wellFormed hg))
  · have hplace := on.place_eq index _ hpiece (by rw [hkeep]; exact List.cons_ne_nil _ _)
    rw [hoffset, if_neg hmonitor] at hplace
    rw [hkeep] at hP ⊢
    exact on.typed_keep_same hi hplaced hf hknows hplace fun f' hstep =>
      (hP 0 f f' (Nat.zero_lt_succ _) hf hstep).mono fun _ => trivial

/-- **Instructions that are kept.** -/
theorem exists_frames_keep (hnone : G.plan.points.find? (·.index = index) = none)
    (hi : G.plan.code.instructions[index]? = some i)
    (hpiece : e.pieces[index]? = some { inPlace := G.layout.keep i, block := [] }) :
    ∃ t t' : LabelFrames, Carries e G index i { inPlace := G.layout.keep i, block := [] } t t' := by
  -- what has no frame is not entered, and control does not leave it
  have hdead : G.plan.frameAt index = none → G.entering index = none ∧ G.entering (index + 1) = none := by
    intro hnone
    refine ⟨?_, Graft.entering_none hnone⟩
    cases hentering : G.entering index with
    | none => rfl
    | some g =>
      obtain ⟨f, hf, -⟩ := Graft.frame_of_entering hentering
      cases hnone.symm.trans hf
  cases hplaced : i.placed? with
  | some l =>
    obtain rfl := Instruction.placed?_eq_some.mp hplaced
    have hlabel : ∀ g, (G.plan.frameAt index).map G.frame = some g → g.WellFormed G.size := by
      intro g hg
      obtain ⟨f, hf, rfl⟩ := Option.map_eq_some_iff.mp hg
      exact Graft.frame_wellFormed (on.wellFormed hf)
    refine ⟨[(l, (G.plan.frameAt index).map G.frame)], [], .singleton rfl hlabel, .nil rfl, ?_, nofun,
      ?_, fun _ _ _ => .nil _ _⟩
    · rintro labels l' hhere ⟨⟩
      exact holds_singleton.mp hhere
    intro labels named P hhere _ _ hP
    have hl := holds_singleton.mp hhere
    have hkeep : G.layout.keep (.label l) = [.label l] := rfl
    dsimp only
    rw [hkeep]
    cases hf : G.plan.frameAt index with
    | none =>
      obtain ⟨hbefore, hafter⟩ := hdead hf
      rw [hf, Option.map_none] at hl
      have hskip : Typed G.context G.size labels named P (e.position index) none [.label l] (labels l) :=
        .label nofun (fun g hg => by rw [hl] at hg; cases hg) (.nil _ _)
      rw [hl] at hskip
      rwa [hbefore, hafter]
    | some f =>
      rw [hf, Option.map_some] at hl
      obtain ⟨f', hstep, -, hnext, -⟩ := on.step hf hi
      obtain ⟨g, hg, hsuits⟩ := hnext rfl
      cases hstep
      rw [Graft.entering_next (Option.isSome_iff_exists.mpr ⟨f, hf⟩) hi rfl, hg, Option.map_some]
      refine Typed.relax (Graft.typed_label (on.wellFormed hf) hl (fun k hk => ?_)
        ((hP 0 f f (Nat.zero_lt_succ _) hf rfl).mono fun _ => trivial)) (Graft.frame_mono hsuits)
        (Graft.frame_wellFormed (on.wellFormed hg))
      obtain ⟨f', hf', rfl⟩ := Graft.frame_of_entering hk
      cases hf.symm.trans hf'
      rfl
  | none =>
    refine ⟨[], [], .nil ?_, .nil rfl, fun _ hl => ?_, nofun, ?_, fun _ _ _ => .nil _ _⟩
    · have hkeep := G.layout.placedBy_keep i
      rwa [hplaced] at hkeep
    · subst hl
      cases hplaced
    intro labels named P _ hknows hnamed hP
    cases hf : G.plan.frameAt index with
    | none =>
      obtain ⟨hbefore, hafter⟩ := hdead hf
      rw [hbefore, hafter]
      exact on.typed_keep_dead hi hplaced (hnamed i (Array.mem_of_getElem? hi))
    | some f =>
      rw [on.entering_of_frame hf fun l hl => by
        obtain rfl := Option.some.inj (hi.symm.trans hl)
        cases hplaced]
      exact on.typed_keep_reached hnone hi hplaced hf hpiece hknows hP

/-- **What stands in place of an instruction**, and its restore block, have frames for their labels. -/
theorem exists_frames (hi : G.plan.code.instructions[index]? = some i)
    (hpiece : e.pieces[index]? = some piece) : ∃ t t' : LabelFrames, Carries e G index i piece t t' := by
  obtain ⟨piece', hpiece', his⟩ := on.piece_of hi
  obtain rfl := Option.some.inj (hpiece.symm.trans hpiece')
  rcases his.cases with ⟨p, hp, ⟨q⟩⟩ | ⟨hnone, rfl⟩
  · exact on.exists_frames_point hp q hi
  · exact on.exists_frames_keep hnone hi hpiece

end Grafted

end Resumption
