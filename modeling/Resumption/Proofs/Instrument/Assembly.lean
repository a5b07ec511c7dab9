import Resumption.Proofs.Instrument.LabelFrames

/-!
# Frames for generated code

All parts of generated code are put together here, with the frames that are awaited at their labels. The
handlers of a method stay in its generated code, and each of them covers the pieces of the instructions
that it covered. One more handler covers everything from the choice of where to go on to the last restore
block.

* **`Graft.entrance`** is what is known when a method begins, **`Graft.catching`** what its handler
  knows.
* **`Grafted.exists_frames_entry`** and **`Grafted.exists_frames_exit`** are for what comes before and
  after the body.
* **`Grafted.exists_table`** is a table of frames for all labels, with which control goes through all of
  the code.
* **`Grafted.exists_body`**: the labels of jumps and handlers can be resolved.
* **`Grafted.edge_written`** and **`Grafted.edge_resetting`** say what the two sorts of handlers cover.
* **`Grafted.allows`**: what control leaves an instruction with, by an exception, is what the handler
  awaits.
* **`Grafted.exists_bounds`**: there are frames which all instructions of generated code accept, and
  those at places of instructions that were kept are what they were.
-/

namespace Resumption

open LabelFrames

/-- Less may be known. -/
theorem Covered.of_suits {T T' : SlotTypes} {size index : Nat} {f f' : Frame}
    (h : Covered size T index f f') (hT : T.Suits T') : Covered size T' index f f' :=
  ⟨h.1.trans hT.locals, h.2.trans hT.locals⟩

namespace Graft

variable {G : Graft} {labels : Label → Option Frame}

/-- What all of generated code knows that the handler covers: where the continuation is. -/
def common (G : Graft) : SlotTypes := Holdings.typeAt [G.layout.heldContinuation]

theorem lasting_common : (Holdings.typeAt G.layout.lasting).Suits G.common :=
  (fits.subset Layout.lasting_pool).suits (by simp [Layout.lasting])

theorem types_common (f : Frame) : (G.types f G.layout.lasting).Suits G.common :=
  (SlotTypes.beside_suits_held _ (fits.subset Layout.lasting_pool)).trans lasting_common

/-- Where the handler of generated code stands. -/
def catching (G : Graft) (labels : Label → Option Frame) : Site where
  context := G.context
  size := G.size
  first := 0
  base := fun _ => .top
  guard := fun _ => .top
  labels

theorem continuation_fits : Holdings.Fits G.first G.size [G.layout.heldContinuation] :=
  fits.subset fun _ hx => Layout.lasting_pool (List.mem_singleton.mp hx ▸ Layout.continuation_lasting)

theorem room_catching : (G.catching labels).Room [G.layout.heldContinuation] where
  fits := continuation_fits.of_le (Nat.zero_le _)
  whole_base := fun _ hslot => absurd hslot (Nat.not_lt_zero _)
  first_le := Nat.zero_le _
  guard := fun _ => .top _

/-- What the handler awaits. -/
def caught (G : Graft) : Frame := .of G.size G.common [.ofClass .throwable]

theorem catching_frame :
    (G.catching labels).frame [G.layout.heldContinuation] [.ofClass .throwable] = G.caught := by
  rw [Site.frame, Site.types, catching, SlotTypes.beside_zero]
  rfl

/-- What an exception comes with suits the handler. -/
theorem handler_suits {g : Frame} (hg : Frame.LocalsSuit id G.size g.locals (G.common.locals G.size)) :
    (g.handler none).Suits id G.size G.caught :=
  ⟨hg, .cons ⟨nofun, .same nofun⟩ .nil⟩

/-- The frame when a method begins. -/
def entrance (G : Graft) (f : Frame) : Frame := .of G.size (G.types f []) []

/-- Where it begins; nothing is covered yet. -/
def beginning (G : Graft) (labels : Label → Option Frame) (f : Frame) : Site :=
  { G.site labels f with guard := fun _ => .top }

theorem room_beginning {f : Frame} (hf : f.WellFormed G.first) : (G.beginning labels f).Room [] where
  fits := ⟨List.forall_mem_nil _, List.forall_mem_nil _, List.forall_mem_nil _⟩
  whole_base := hf.whole G.place
  first_le := first_le
  guard := fun _ => .top _

end Graft

/-! ## What comes before and after the body -/

/-- What comes before everything that the handler covers. -/
def Layout.opening (l : Layout) : List Instruction :=
  l.announce "entry" ++ [.load .object l.plan.continuationSlot, l.continuation.store] ++
    l.createLockState

/-- What finds out where to go on. -/
def Layout.dispatch (l : Layout) (bodyStart written invalid : Label) (restores : List Label)
    (enters : List Instruction) : List Instruction :=
  [.label bodyStart] ++ l.unlessMode .loading written ++ l.announce "loading" ++
    l.loadState invalid enters ++ l.toPoint invalid restores ++
    [.label invalid, callStatic Interface.Continuation.invalidContinuationPoint, .throw]

theorem Layout.entry_eq (l : Layout) (bodyStart written invalid : Label) (restores : List Label)
    (enters : List Instruction) :
    l.entry bodyStart written invalid restores enters =
      l.opening ++ l.dispatch bodyStart written invalid restores enters ++ [.label written] := by
  simp only [entry, start, opening, dispatch, List.append_assoc, List.cons_append, List.nil_append]

namespace Grafted

variable {h : Hierarchy} {owner : ClassName} {m : Method} {e : Expansion} {G : Graft}
  (on : Grafted h owner m e G)

/-- The frame when the method as written begins. -/
def first (_ : Grafted h owner m e G) : Frame :=
  .entry owner m.name m.descriptor m.isStatic G.first

theorem first_wellFormed : on.first.WellFormed G.first := by
  obtain ⟨analyzed⟩ := analyzeCode_analyzed on.analysis_eq
  refine Frame.entry_wellFormed ?_
  rw [on.first_eq]
  exact analyzed.arguments_le

theorem exists_frames_exit : ∃ t : LabelFrames, t.Covers G.size e.exit ∧
    (∀ {labels}, t.Holds labels → labels on.shape.handler = some G.caught) ∧
    ∀ {labels named P start}, t.Holds labels → (∀ n g g', n < e.exit.length → P (start + n) g g') →
      Typed G.context G.size labels named P start none e.exit none := by
  have hcaught : G.caught.WellFormed G.size := by
    have hroom : (G.catching fun _ => none).Room [G.layout.heldContinuation] := Graft.room_catching
    have hframe := hroom.frame_wellFormed fun t (ht : t ∈ [SlotType.ofClass .throwable]) =>
      List.mem_singleton.mp ht ▸ nofun
    rwa [Graft.catching_frame] at hframe
  refine ⟨[(on.shape.bodyEnd, none), (on.shape.handler, some G.caught),
    (on.shape.rethrow, some G.caught)], ⟨?_, fun l f hmem => ?_⟩, fun ht => ?_, fun ht hP => ?_⟩
  · rw [on.shape.exit_eq, Layout.placedBy_exit]
    rfl
  · simp only [List.mem_cons, Prod.mk.injEq, Option.some.injEq, reduceCtorEq, and_false, false_or,
      List.not_mem_nil, or_false] at hmem
    rcases hmem with ⟨-, rfl⟩ | ⟨-, rfl⟩ <;> exact hcaught
  · exact (holds_cons.mp (holds_cons.mp ht).2).1
  · obtain ⟨hbodyEnd, ht⟩ := holds_cons.mp ht
    obtain ⟨hhandler, ht⟩ := holds_cons.mp ht
    have hgoes := Site.goes_exit Graft.room_catching hbodyEnd
      (hhandler.trans (congrArg some Graft.catching_frame.symm))
      ((holds_singleton.mp ht).trans (congrArg some Graft.catching_frame.symm))
    rw [← on.shape.exit_eq] at hgoes
    exact hgoes.typed _ fun n g g' hn _ => hP n g g' hn

theorem exists_frames_entry (hslot : G.plan.continuationSlot < G.first)
    (hcontinuation : on.first.locals[G.plan.continuationSlot]? = some (.ofClass .continuation)) :
    ∃ t : LabelFrames, t.Covers G.size e.entry ∧ ∀ {labels named P}, t.Holds labels →
      (∀ restore ∈ on.shape.restores, labels restore =
        some ((G.restoring labels).frame (G.layout.heldState :: G.layout.lasting) [])) →
      (∀ n g g', n < e.entry.length →
        (G.layout.opening.length ≤ n → Covered G.size G.common n g g') → P n g g') →
      Typed G.context G.size labels named P 0 (some (G.entrance on.first)) e.entry (G.entering 0) := by
  have hf := on.first_wellFormed
  obtain ⟨g₀, hg₀, hsuits⟩ : on.first.Within G.plan.frameAt G.first 0 := on.bounds.2
  have hwf₀ := on.wellFormed hg₀
  have hlastingFits : G.layout.lasting.Fits G.first G.size := Graft.fits.subset Layout.lasting_pool
  have hstateFits : Holdings.Fits G.first G.size (G.layout.heldState :: G.layout.lasting) :=
    Graft.fits.subset Layout.state_pool
  have hroom : (G.site (fun _ => none) on.first).Room G.layout.lasting := Graft.room_lasting hf
  have hlasting : (G.frame on.first).WellFormed G.size := Graft.frame_wellFormed hf
  obtain ⟨t₀, hcovers₀, hloops₀⟩ := on.shape.enters_loop.exists_frames Layout.placedBy_enterLoop
    (hroom.cons hstateFits) fun v hv =>
      Graft.fits.subset (Layout.looping_pool hv (List.Subset.refl _))
  -- the frame on entry stands at all labels but the last, from where the body goes on with its own
  -- first frame
  refine ⟨(on.shape.bodyStart, some (G.frame on.first)) :: (t₀ ++
    [(on.shape.invalid, some (G.frame on.first)), (on.shape.written, some (G.frame g₀))]),
    ⟨?_, fun l f hmem => ?_⟩, fun {labels named P} ht hrestores hP => ?_⟩
  · rw [on.shape.entry_eq, Layout.placedBy_entry, List.map_cons, List.map_append, hcovers₀.labels]
    rfl
  · simp only [List.mem_cons, List.mem_append, Prod.mk.injEq, Option.some.injEq, List.not_mem_nil,
      or_false] at hmem
    rcases hmem with ⟨-, rfl⟩ | hmem | ⟨-, rfl⟩ | ⟨-, rfl⟩
    · exact hlasting
    · exact hcovers₀.wellFormed l f hmem
    · exact hlasting
    · exact Graft.frame_wellFormed hwf₀
  · obtain ⟨hbodyStart, ht⟩ := holds_cons.mp ht
    obtain ⟨hloops, ht⟩ := holds_append.mp ht
    obtain ⟨hinvalid, ht⟩ := holds_cons.mp ht
    have hwritten := holds_singleton.mp ht
    have hbase : SlotTypes.ofLocals G.place on.first.locals G.plan.continuationSlot =
        .ofClass .continuation := SlotTypes.ofLocals_eq hcontinuation
    have hbegin : (G.beginning labels on.first).Goes (some (G.entrance on.first)) G.layout.opening
        (some (G.frame on.first)) :=
      Site.goes_begin (Graft.room_beginning hf) hslot hbase hlastingFits
    have hroom : (G.site labels on.first).Room G.layout.lasting := Graft.room_lasting hf
    have hrestoring : ((G.site labels on.first).frame (G.layout.heldState :: G.layout.lasting) []).Suits
        id G.size ((G.restoring labels).frame (G.layout.heldState :: G.layout.lasting) []) := by
      refine Frame.of_suits ?_ (List.forall_mem_nil _)
      rw [Graft.restoring_types]
      exact SlotTypes.beside_suits_held _ hstateFits
    have hentry : (G.site labels on.first).Goes (some (G.frame on.first)) (G.layout.dispatch
        on.shape.bodyStart on.shape.written on.shape.invalid on.shape.restores on.shape.enters) none :=
      Site.goes_entry hroom hstateFits hbodyStart hinvalid ⟨_, hwritten, Graft.frame_mono hsuits⟩
        (fun restore hrestore => ⟨_, hrestores restore hrestore, hrestoring⟩) (hloops₀ labels hloops)
    rw [on.shape.entry_eq, Layout.entry_eq] at hP ⊢
    rw [List.length_append, List.length_append, List.length_singleton] at hP
    rw [Graft.entering, hg₀, Option.map_some, ← hwritten]
    refine .append (.append (hbegin.typed 0 fun n g g' hn _ => ?_)
      (hentry.typed _ fun n g g' hn hguarded => ?_)) (.label (fun _ h => by cases h) (fun g hg => ?_) (.nil _ _))
    · rw [Nat.zero_add]
      exact hP n g g' (by omega) fun hle => by omega
    · exact hP _ g g' (by omega) fun _ => hguarded.of_suits (Graft.types_common on.first)
    · obtain rfl := Option.some.inj (hwritten.symm.trans hg)
      rw [List.length_append]
      exact hP _ _ _ (by omega) fun _ =>
        ⟨(Graft.types_common g₀).locals, (Graft.types_common g₀).locals⟩

end Grafted

/-! ## All parts -/

section

variable {pieces : List Piece} {part : Piece → List Instruction}

theorem flatMap_take_succ {index : Nat} {piece : Piece} (h : pieces[index]? = some piece) :
    (pieces.take (index + 1)).flatMap part = (pieces.take index).flatMap part ++ part piece := by
  rw [List.take_add_one, h, Option.toList_some, List.flatMap_append, List.flatMap_singleton]

theorem length_flatMap_take_le {index : Nat} {piece : Piece} (h : pieces[index]? = some piece) :
    ((pieces.take index).flatMap part).length + (part piece).length ≤ (pieces.flatMap part).length := by
  rw [Expansion.flatMap_split h, List.length_append, List.length_append]
  exact Nat.le_add_right ..

/-- Parts of pieces one after the other. -/
theorem Typed.flatMap {context : MethodContext} {size : Nat} {labels : Label → Option Frame}
    {named : Label → Prop} {P : Nat → Frame → Frame → Prop} {start : Nat} (enters : Nat → Option Frame)
    (h : ∀ index piece, pieces[index]? = some piece →
      Typed context size labels named P (start + ((pieces.take index).flatMap part).length)
        (enters index) (part piece) (enters (index + 1))) :
    Typed context size labels named P start (enters 0) (pieces.flatMap part)
      (enters pieces.length) := by
  have hfirst : ∀ n, n ≤ pieces.length → Typed context size labels named P start (enters 0)
      ((pieces.take n).flatMap part) (enters n) := by
    intro n hn
    induction n with
    | zero => exact .nil _ _
    | succ n ih =>
      have hpiece : pieces[n]? = some pieces[n] := List.getElem?_eq_getElem hn
      rw [flatMap_take_succ hpiece]
      exact (ih (Nat.le_of_succ_le hn)).append (h n _ hpiece)
  have hall := hfirst pieces.length (Nat.le_refl _)
  rwa [List.take_length] at hall

theorem LabelFrames.Covers.flatMap {size : Nat} {t : Nat → LabelFrames}
    (h : ∀ index piece, pieces[index]? = some piece → (t index).Covers size (part piece)) :
    Covers size ((List.range pieces.length).flatMap t) (pieces.flatMap part) := by
  have hfirst : ∀ n, n ≤ pieces.length →
      Covers size ((List.range n).flatMap t) ((pieces.take n).flatMap part) := by
    intro n hn
    induction n with
    | zero => exact .nil rfl
    | succ n ih =>
      have hpiece : pieces[n]? = some pieces[n] := List.getElem?_eq_getElem hn
      rw [flatMap_take_succ hpiece, List.range_succ, List.flatMap_append, List.flatMap_singleton]
      exact (ih (Nat.le_of_succ_le hn)).append (h n _ hpiece)
  have hall := hfirst pieces.length (Nat.le_refl _)
  rwa [List.take_length] at hall

end

theorem LabelFrames.holds_flatMap {t : Nat → LabelFrames} {n : Nat} {labels : Label → Option Frame}
    (h : Holds ((List.range n).flatMap t) labels) {index : Nat} (hindex : index < n) :
    (t index).Holds labels := fun x hx =>
  h x (List.mem_flatMap.mpr ⟨index, List.mem_range.mpr hindex, hx⟩)

namespace Grafted

variable {h : Hierarchy} {owner : ClassName} {m : Method} {e : Expansion} {G : Graft}
  (on : Grafted h owner m e G)

/-- What may be asked of the frames before and after every instruction of generated code: in place of an
instruction of the body as written, what may be asked of its piece, and elsewhere in the range of the
handler, what the handler needs to know. -/
structure Allows (on : Grafted h owner m e G) (P : Nat → Frame → Frame → Prop) : Prop where
  /-- in front of the body -/
  entry : ∀ n g g', n < e.entry.length →
    (G.layout.opening.length ≤ n → Covered G.size G.common n g g') → P n g g'
  /-- in the place of an instruction -/
  piece : ∀ index i piece n f f', G.plan.code.instructions[index]? = some i →
    e.pieces[index]? = some piece → n < piece.inPlace.length → G.plan.frameAt index = some f →
    f.step G.context index i = .ok f' →
    G.Permits P f f' (G.plan.Keeps G.layout.settings index i ∧ n = G.plan.offset index)
      (e.position index + n)
  /-- in a restore block -/
  block : ∀ n g g', e.blocksStart ≤ n → n < e.exitPosition → Covered G.size G.common n g g' → P n g g'
  /-- behind the restore blocks -/
  exit : ∀ n g g', e.exitPosition ≤ n → P n g g'

/-- The labels of restore blocks are placed. -/
theorem exists_restore {restore : Label} (hrestore : restore ∈ on.shape.restores) :
    ∃ (index : Nat) (i : Instruction) (piece : Piece), G.plan.code.instructions[index]? = some i ∧
      e.pieces[index]? = some piece ∧ restore ∈ placedBy piece.block := by
  obtain ⟨n, hn, rfl⟩ := List.mem_iff_getElem.mp hrestore
  have hlt : n < G.plan.points.length := by rwa [← on.shape.restores_length]
  have hget : (suspendPoints on.policy G.plan.code G.plan.analysis)[n]? = some G.plan.points[n] := by
    rw [← on.points_eq]
    exact List.getElem?_eq_getElem hlt
  have hid := getElem?_point hget
  have hfind := find?_point (List.mem_of_getElem? hget)
  rw [← on.points_eq] at hfind
  obtain ⟨-, -, -, kind, r, hcall, -⟩ := on.point hfind
  obtain ⟨piece, hpiece, his⟩ := on.piece_of hcall
  obtain ⟨q⟩ := his.point hfind
  refine ⟨_, _, piece, hcall, hpiece, ?_⟩
  rw [q.block_eq, Layout.placedBy_restoreBlock q.restores_locals.straight q.restores_stack.straight,
    hid, List.getD_eq_getElem _ _ hn]
  exact List.mem_singleton_self _

include on

theorem entering_last : G.entering e.pieces.length = none := by
  cases hentering : G.entering e.pieces.length with
  | none => rfl
  | some g =>
    obtain ⟨f, hf, -⟩ := Graft.frame_of_entering hentering
    obtain ⟨i, _, hi, -⟩ := on.bounds.1.step hf
    have hlt := (Array.getElem?_eq_some_iff.mp hi).1
    rw [← on.pieces_length] at hlt
    exact absurd hlt (Nat.lt_irrefl _)

/-- **Frames for all labels** of generated code. -/
theorem exists_table (hslot : G.plan.continuationSlot < G.first)
    (hcontinuation : on.first.locals[G.plan.continuationSlot]? = some (.ofClass .continuation)) :
    ∃ t : LabelFrames, t.Covers G.size e.instructions ∧ ∀ labels, t.Holds labels →
      labels on.shape.handler = some G.caught ∧ G.Knows labels ∧
      ∀ named P, (∀ i ∈ G.plan.code.instructions, ∀ l ∈ i.targets, named l) → on.Allows P →
        Typed G.context G.size labels named P 0 (some (G.entrance on.first)) e.instructions none := by
  obtain ⟨first, hfirst, hentry⟩ := on.exists_frames_entry hslot hcontinuation
  obtain ⟨last, hlast, hhandler, hexit⟩ := on.exists_frames_exit
  have hpieces : ∀ index, ∃ t : LabelFrames × LabelFrames, ∀ i piece,
      G.plan.code.instructions[index]? = some i → e.pieces[index]? = some piece →
      Carries e G index i piece t.1 t.2 := by
    intro index
    cases hi : G.plan.code.instructions[index]? with
    | none => exact ⟨([], []), fun _ _ hi => by cases hi⟩
    | some i =>
      obtain ⟨piece, hpiece, -⟩ := on.piece_of hi
      obtain ⟨t, t', hcarries⟩ := on.exists_frames hi hpiece
      refine ⟨(t, t'), ?_⟩
      rintro _ piece' ⟨⟩ hpiece'
      obtain rfl := Option.some.inj (hpiece.symm.trans hpiece')
      exact hcarries
  -- One table for each piece: its labels are its own, so the tables are put one after the other.
  choose tables htables using hpieces
  have hcarries : ∀ index piece, e.pieces[index]? = some piece →
      ∃ i, G.plan.code.instructions[index]? = some i ∧
        Carries e G index i piece (tables index).1 (tables index).2 := by
    intro index piece hpiece
    have hlt : index < G.plan.code.instructions.size := by
      rw [← on.pieces_length]
      exact (List.getElem?_eq_some_iff.mp hpiece).1
    exact ⟨_, Array.getElem?_eq_getElem hlt, htables index _ piece (Array.getElem?_eq_getElem hlt) hpiece⟩
  refine ⟨first ++ (List.range e.pieces.length).flatMap (fun index => (tables index).1) ++
    (List.range e.pieces.length).flatMap (fun index => (tables index).2) ++ last,
    ((hfirst.append (.flatMap fun index piece hpiece => ?_)).append
      (.flatMap fun index piece hpiece => ?_)).append hlast, fun labels ht => ?_⟩
  · obtain ⟨i, -, hcarries⟩ := hcarries index piece hpiece
    exact hcarries.here_covers
  · obtain ⟨i, -, hcarries⟩ := hcarries index piece hpiece
    exact hcarries.there_covers
  obtain ⟨ht, hlast⟩ := holds_append.mp ht
  obtain ⟨ht, hthere⟩ := holds_append.mp ht
  obtain ⟨hfirst, hhere⟩ := holds_append.mp ht
  have hlt : ∀ {index piece}, e.pieces[index]? = some piece → index < e.pieces.length := fun h =>
    (List.getElem?_eq_some_iff.mp h).1
  have hknows : G.Knows labels := by
    intro index l hl
    obtain ⟨piece, hpiece, -⟩ := on.piece_of hl
    exact (htables index _ piece hl hpiece).label (holds_flatMap hhere (hlt hpiece)) rfl
  refine ⟨hhandler hlast, hknows, fun named P hnamed hP => ?_⟩
  rw [Expansion.instructions]
  have hrestores : ∀ restore ∈ on.shape.restores, labels restore =
      some ((G.restoring labels).frame (G.layout.heldState :: G.layout.lasting) []) := by
    intro restore hrestore
    obtain ⟨index, i, piece, hi, hpiece, hmem⟩ := on.exists_restore hrestore
    exact (htables index i piece hi hpiece).restore (holds_flatMap hthere (hlt hpiece)) hmem
  -- with the whole table fixed, each part is typed in its place
  have hbody : Typed G.context G.size labels named P e.entry.length (G.entering 0)
      (e.pieces.flatMap (·.inPlace)) (G.entering e.pieces.length) := by
    refine .flatMap _ fun index piece hpiece => ?_
    obtain ⟨i, hi, hcarries⟩ := hcarries index piece hpiece
    exact hcarries.inPlace (holds_flatMap hhere (hlt hpiece)) hknows hnamed fun n f f' hn hf hstep =>
      hP.piece index i piece n f f' hi hpiece hn hf hstep
  have hblocks : Typed G.context G.size labels named P e.blocksStart none
      (e.pieces.flatMap (·.block)) none := by
    refine .flatMap (fun _ => none) fun index piece hpiece => ?_
    obtain ⟨i, -, hcarries⟩ := hcarries index piece hpiece
    refine hcarries.block (holds_flatMap hhere (hlt hpiece)) (holds_flatMap hthere (hlt hpiece))
      fun n g g' hn hguarded => hP.block _ g g' (by omega) ?_ (hguarded.of_suits Graft.lasting_common)
    have hwithin : ((e.pieces.take index).flatMap (·.block)).length + piece.block.length ≤
        (e.pieces.flatMap (·.block)).length := length_flatMap_take_le hpiece
    rw [Expansion.exitPosition, ← Expansion.blocksStart_eq]
    omega
  rw [on.entering_last, ← Nat.zero_add e.entry.length] at hbody
  have hbefore := (hentry hfirst hrestores hP.entry).append hbody
  rw [Expansion.blocksStart_eq, ← List.length_append, ← Nat.zero_add (List.length _)] at hblocks
  refine (hbefore.append hblocks).append (hexit hlast fun n g g' _ => hP.exit _ g g' ?_)
  rw [Expansion.exitPosition]
  simp only [List.length_append]
  omega

end Grafted

/-! ## Ranges of handlers -/

namespace Graft

variable {G : Graft} {labels : Label → Option Frame}

/-- What comes to a handler of the body as written is awaited there if the body awaits it. -/
theorem Knows.handler (hknows : G.Knows labels) {f g : Frame} {caught : Option ClassName}
    {target : Nat} {l : Label} (hg : Frame.LocalsSuit id G.size g.locals (G.frame f).locals)
    (hwithin : (f.handler caught).Within G.plan.frameAt G.first target)
    (htarget : G.plan.code.instructions[target]? = some (.label l)) :
    (g.handler caught).Awaited labels G.size l := by
  obtain ⟨k, hk, hsuits⟩ := hwithin
  have hcaught : (g.handler caught).Suits id G.size (G.frame (f.handler caught)) :=
    ⟨hg, .cons ⟨nofun, .same nofun⟩ .nil⟩
  exact ⟨G.frame k, by rw [hknows target l htarget, hk]; rfl, hcaught.trans (frame_mono hsuits)⟩

end Graft

namespace Grafted

variable {h : Hierarchy} {owner : ClassName} {m : Method} {e : Expansion} {G : Graft}
  (on : Grafted h owner m e G) {body : Body} {index : Nat} {i : Instruction} {l : Label}

/-! ## Where labels are -/

section

include on

/-- Labels are kept as they are. -/
theorem label_piece (hl : G.plan.code.instructions[index]? = some (.label l)) :
    e.pieces[index]? = some ⟨[.label l], []⟩ := by
  obtain ⟨piece, hpiece, his⟩ := on.piece_of hl
  rcases his.cases with ⟨p, hp, -⟩ | ⟨-, rfl⟩
  · obtain ⟨-, -, -, kind, r, hcall, -⟩ := on.point hp
    cases hl.symm.trans hcall
  · exact hpiece

theorem has_label (hcode : body.instructions.toList = e.instructions)
    (hl : G.plan.code.instructions[index]? = some (.label l)) :
    body.Has (e.position index) [.label l] :=
  Expansion.has_inPlace hcode (on.label_piece hl)

/-- Where the range of the handler begins. -/
theorem has_bodyStart (hcode : body.instructions.toList = e.instructions) :
    body.Has G.layout.opening.length [.label on.shape.bodyStart] := by
  have hentry := Expansion.has_entry hcode
  rw [on.shape.entry_eq, Layout.entry_eq, List.append_assoc] at hentry
  have hdispatch := (Body.Has.append_iff.mp (Body.Has.append_iff.mp hentry).2).1
  rw [Nat.zero_add] at hdispatch
  exact Body.Has.cons_iff.mpr ⟨(Body.Has.cons_iff.mp hdispatch).1, .nil ..⟩

/-- What the handler that comes last begins with. -/
theorem has_bodyEnd (hcode : body.instructions.toList = e.instructions) :
    body.Has e.exitPosition [.label on.shape.bodyEnd] := by
  have hexit := Expansion.has_exit hcode
  rw [on.shape.exit_eq] at hexit
  exact Body.Has.cons_iff.mpr ⟨(Body.Has.cons_iff.mp hexit).1, .nil ..⟩

theorem mem_handlers {x : Handler} : x ∈ e.code.handlers ↔ x ∈ G.plan.code.handlers ∨
    x = ⟨on.shape.bodyStart, on.shape.bodyEnd, on.shape.handler, none⟩ := by
  have hhandlers : e.code.handlers = e.handlers := rfl
  rw [hhandlers, on.shape.handlers_eq, List.mem_append, List.mem_singleton]

/-- A handler of the body as written, with its labels. -/
theorem handler_labels {x : Handler} (hx : x ∈ G.plan.code.handlers) : ∃ start stop entry : Nat,
    G.plan.code.instructions[start]? = some (.label x.start) ∧
    G.plan.code.instructions[stop]? = some (.label x.stop) ∧
    G.plan.code.instructions[entry]? = some (.label x.entry) := by
  obtain ⟨analyzed⟩ := analyzeCode_analyzed on.analysis_eq
  obtain ⟨range, -, hresolve⟩ := (mem_of_forall₂ analyzed.ranges_resolve).1 x hx
  obtain ⟨hstart, hstop, hentry⟩ := Code.resolve_ok.mp hresolve
  exact ⟨_, _, _, analyzed.find_iff.mp hstart, analyzed.find_iff.mp hstop, analyzed.find_iff.mp hentry⟩

/-- Labels of the body as written are placed in generated code. -/
theorem mem_placed (hl : G.plan.code.instructions[index]? = some (.label l)) : l ∈ e.code.placed :=
  Code.mem_placed.mpr (Array.mem_of_getElem? (Expansion.getElem?_position (on.label_piece hl)
    (show [Instruction.label l][0]? = _ from rfl)))

/-- The labels of handlers are placed. -/
theorem handler_placed {x : Handler} (hx : x ∈ e.code.handlers) :
    x.start ∈ e.code.placed ∧ x.stop ∈ e.code.placed ∧ x.entry ∈ e.code.placed := by
  rcases on.mem_handlers.mp hx with hx | rfl
  · obtain ⟨_, _, _, hstart, hstop, hentry⟩ := on.handler_labels hx
    exact ⟨on.mem_placed hstart, on.mem_placed hstop, on.mem_placed hentry⟩
  · have hentry : on.shape.bodyStart ∈ placedBy e.entry := by
      rw [on.shape.entry_eq, Layout.placedBy_entry]
      exact List.mem_cons_self ..
    have hexit : [on.shape.bodyEnd, on.shape.handler, on.shape.rethrow] = placedBy e.exit := by
      rw [on.shape.exit_eq, Layout.placedBy_exit]
    have hplaced : e.code.placed = placedBy e.instructions := rfl
    rw [hplaced, Expansion.instructions, placedBy_append, placedBy_append, placedBy_append, ← hexit]
    exact ⟨List.mem_append_left _ (List.mem_append_left _ (List.mem_append_left _ hentry)),
      List.mem_append_right _ (by simp), List.mem_append_right _ (by simp)⟩

/-- **All labels of handlers are resolved.** -/
theorem exists_body (hnodup : e.code.placed.Nodup) : ∃ body, Body.ofCode e.code = .ok body := by
  obtain ⟨positions, hpositions⟩ := Code.labelPositions_of_nodup hnodup
  have hfind : ∀ {l}, l ∈ e.code.placed → ∃ position, positions.find l = .ok position :=
    (Code.mem_placed_iff_find hpositions).mp
  obtain ⟨ranges, hranges⟩ := Subroutine.handlerRanges_of_resolve hpositions fun x hx => by
    obtain ⟨hstart, hstop, hentry⟩ := on.handler_placed hx
    obtain ⟨start, hstart⟩ := hfind hstart
    obtain ⟨stop, hstop⟩ := hfind hstop
    obtain ⟨entry, hentry⟩ := hfind hentry
    exact ⟨⟨start, stop, entry⟩, Code.resolve_ok.mpr ⟨hstart, hstop, hentry⟩⟩
  exact ⟨_, Except.bind_ok.mpr ⟨positions, hpositions, Except.bind_ok.mpr ⟨ranges, hranges, rfl⟩⟩⟩

/-! ## What handlers cover -/

/-- Labels are found where they are. -/
theorem find_label (hbody : Body.ofCode e.code = .ok body) {k : Nat}
    (hk : e.code.instructions[k]? = some (.label l))
    (hl : G.plan.code.instructions[index]? = some (.label l)) : k = e.position index := by
  have hcode : body.instructions.toList = e.instructions := by
    rw [(Body.ofCode_inv hbody).1]
    exact List.toList_toArray
  have hfind := Body.find_label hbody (on.has_label hcode hl)
  have hfind' := (Code.find_iff (Body.ofCode_inv hbody).2.1).mpr hk
  exact Except.ok.inj (hfind'.symm.trans hfind)

/-- **A handler of the body as written** covers the pieces of what it covered. -/
theorem edge_written (hbody : Body.ofCode e.code = .ok body) {x : Handler}
    (hx : x ∈ G.plan.code.handlers) {q target : Nat} (hedge : e.code.Edge q (some x) target) :
    ∃ start stop entry : Nat, G.plan.code.instructions[start]? = some (.label x.start) ∧
      G.plan.code.instructions[stop]? = some (.label x.stop) ∧
      G.plan.code.instructions[entry]? = some (.label x.entry) ∧
      e.position start ≤ q ∧ q < e.position stop := by
  obtain ⟨start, stop, entry, hstart, hstop, hentry⟩ := on.handler_labels hx
  cases hedge with
  | handler _ hstart' hstop' _ hcovers =>
    rw [on.find_label hbody hstart' hstart, on.find_label hbody hstop' hstop] at hcovers
    exact ⟨start, stop, entry, hstart, hstop, hentry, hcovers⟩

/-- **The handler that comes last** covers everything from the choice of where to go on to the last
restore block. -/
theorem edge_resetting (hbody : Body.ofCode e.code = .ok body) {q target : Nat}
    (hedge : e.code.Edge q
      (some ⟨on.shape.bodyStart, on.shape.bodyEnd, on.shape.handler, none⟩) target) :
    G.layout.opening.length ≤ q ∧ q < e.exitPosition := by
  have hcode : body.instructions.toList = e.instructions := by
    rw [(Body.ofCode_inv hbody).1]
    exact List.toList_toArray
  have hstart := Body.find_label hbody (on.has_bodyStart hcode)
  have hstop := Body.find_label hbody (on.has_bodyEnd hcode)
  have hfind : ∀ {k : Nat} {l}, e.code.instructions[k]? = some (.label l) →
      body.positions.find l = .ok k := fun hk => (Code.find_iff (Body.ofCode_inv hbody).2.1).mpr hk
  cases hedge with
  | handler _ hstart' hstop' _ hcovers =>
    cases (hfind hstart').symm.trans hstart
    cases (hfind hstop').symm.trans hstop
    exact hcovers

/-- An instruction that is kept, in its piece. -/
theorem kept (hi : G.plan.Keeps G.layout.settings index i) : ∃ piece, e.pieces[index]? = some piece ∧
    piece.inPlace[G.plan.offset index]? = some i ∧ piece.inPlace ≠ [] ∧
    G.place index = e.position index + G.plan.offset index := by
  obtain ⟨piece, hpiece, his⟩ := on.piece_of hi.written
  have hkept := his.kept on.monitors_eq hi
  have hne : piece.inPlace ≠ [] := by
    rintro hnil
    rw [hnil] at hkept
    cases hkept
  exact ⟨piece, hpiece, hkept, hne, on.place_eq index piece hpiece hne⟩

/-- Labels of handlers come before the restore blocks. -/
theorem position_label_le (hl : G.plan.code.instructions[index]? = some (.label l)) :
    e.position index ≤ e.blocksStart := by
  have hlt := (Array.getElem?_eq_some_iff.mp hl).1
  rw [← on.pieces_length] at hlt
  exact Expansion.position_mono hlt.le

end

/-! ## Frames -/

/-- Whatever comes to a handler of generated code is awaited there. -/
def Catches (_ : Grafted h owner m e G) (labels : Label → Option Frame) (q : Nat) (g g' : Frame) :
    Prop :=
  ∀ x target, e.code.Edge q (some x) target →
    (g.handler x.caught).Awaited labels G.size x.entry ∧
    (g'.handler x.caught).Awaited labels G.size x.entry

/-- At the place of an instruction that is kept there is a frame that suits the one that it had. -/
def Recalls (_ : Grafted h owner m e G) (q : Nat) (g : Frame) : Prop :=
  ∀ index i, G.plan.Keeps G.layout.settings index i → G.place index = q →
    ∃ f, G.plan.frameAt index = some f ∧ g.Suits G.place G.first f

variable {labels : Label → Option Frame}

/-- Outside of pieces there is the last handler only, and nothing that is kept. -/
theorem catches_outside (hbody : Body.ofCode e.code = .ok body)
    (hhandler : labels on.shape.handler = some G.caught) {q : Nat} {g g' : Frame}
    (hq : q < e.entry.length ∨ e.blocksStart ≤ q)
    (hguarded : G.layout.opening.length ≤ q → q < e.exitPosition → Covered G.size G.common q g g') :
    on.Catches labels q g g' ∧ on.Recalls q g := by
  refine ⟨fun x target hedge => ?_, fun index i hi hplace => ?_⟩
  · have hx : x ∈ e.code.handlers := by
      cases hedge
      assumption
    rcases on.mem_handlers.mp hx with hx | rfl
    · obtain ⟨start, stop, entry, -, hstop, -, hle, hlt⟩ := on.edge_written hbody hx hedge
      have := e.entry_le_position start
      have := on.position_label_le hstop
      omega
    · obtain ⟨hle, hlt⟩ := on.edge_resetting hbody hedge
      obtain ⟨hbefore, hafter⟩ := hguarded hle hlt
      exact ⟨⟨_, hhandler, Graft.handler_suits hbefore⟩, ⟨_, hhandler, Graft.handler_suits hafter⟩⟩
  · obtain ⟨piece, hpiece, hkept, -, hplace'⟩ := on.kept hi
    have := e.entry_le_position index
    have := Expansion.position_lt_blocksStart hpiece (List.getElem?_eq_some_iff.mp hkept).1
    omega

/-- **What may be asked of the frames**: that handlers await them, and that they are what they were. -/
theorem allows (hbody : Body.ofCode e.code = .ok body)
    (hhandler : labels on.shape.handler = some G.caught) (hknows : G.Knows labels) :
    on.Allows fun q g g' => on.Catches labels q g g' ∧ on.Recalls q g where
  entry n g g' hn hguarded := on.catches_outside hbody hhandler (.inl hn) fun hle _ => hguarded hle
  block n g g' hle hlt hguarded := on.catches_outside hbody hhandler (.inr hle) fun _ _ => hguarded
  exit n g g' hle :=
    on.catches_outside hbody hhandler
      (.inr (by rw [Expansion.exitPosition, ← Expansion.blocksStart_eq] at hle; omega))
      fun _ hlt => absurd hlt (Nat.not_lt.mpr hle)
  piece index i piece n f f' hi hpiece hn hf hstep := by
    intro g g' hbefore hafter hkept
    refine ⟨fun x target hedge => ?_, fun index' i' hi' hplace => ?_⟩
    · have hx : x ∈ e.code.handlers := by
        cases hedge
        assumption
      rcases on.mem_handlers.mp hx with hx | rfl
      · obtain ⟨start, stop, entry, hstart, hstop, hentry, hle, hlt⟩ := on.edge_written hbody hx hedge
        have hcovers : G.plan.code.Edge index (some x) entry :=
          .handler hx hstart hstop hentry (Expansion.covers_piece hpiece hn hle hlt)
        obtain ⟨f'', hstep', -, -, hhandlers⟩ := on.step hf hi
        cases hstep.symm.trans hstep'
        obtain ⟨hwithin, hwithin'⟩ := hhandlers x entry hcovers
        exact ⟨hknows.handler hbefore hwithin hentry, hafter.elim
          (fun hafter => hknows.handler hafter hwithin hentry)
          fun hafter => hknows.handler hafter hwithin' hentry⟩
      · have hcommon : ∀ {f g : Frame}, Frame.LocalsSuit id G.size g.locals (G.frame f).locals →
            (g.handler none).Awaited labels G.size on.shape.handler := fun hlocals =>
          ⟨_, hhandler, Graft.handler_suits (hlocals.trans (Graft.types_common _).locals)⟩
        exact ⟨hcommon hbefore, hafter.elim hcommon hcommon⟩
    · obtain ⟨piece', hpiece', hkept', -, hplace'⟩ := on.kept hi'
      have heq : e.position index' + G.plan.offset index' = e.position index + n :=
        hplace'.symm.trans hplace
      obtain rfl := Expansion.position_unique hpiece' hpiece (List.getElem?_eq_some_iff.mp hkept').1 hn
        heq
      obtain rfl := Option.some.inj (hi'.written.symm.trans hi)
      exact ⟨f, hf, hkept ⟨hi', by omega⟩⟩

include on

/-- **Frames for all of generated code.** At the place of an instruction that is kept, they suit the
frame that it had; and labels that are used are placed, except by what was there before. -/
theorem exists_bounds (hnodup : e.code.placed.Nodup) (hslot : G.plan.continuationSlot < G.first)
    (hcontinuation : on.first.locals[G.plan.continuationSlot]? = some (.ofClass .continuation)) :
    ∃ known, e.code.Bounds G.context G.size known ∧
      (G.entrance on.first).Within known G.size 0 ∧
      (∀ index i g, G.plan.Keeps G.layout.settings index i → known (G.place index) = some g →
        ∃ f, G.plan.frameAt index = some f ∧ g.Suits G.place G.first f) ∧
      ∀ i ∈ e.code.instructions, ∀ l ∈ i.targets,
        l ∈ e.code.placed ∨ ∃ j ∈ G.plan.code.instructions, l ∈ j.targets := by
  obtain ⟨body, hbody⟩ := on.exists_body hnodup
  obtain ⟨t, hcovers, htable⟩ := on.exists_table hslot hcontinuation
  have hplaced : t.map Prod.fst = e.code.placed := hcovers.labels
  have hholds : t.Holds t.awaited := LabelFrames.holds_awaited (hplaced ▸ hnodup)
  have hawaited : ∀ l g, t.awaited l = some g → l ∈ e.code.placed := fun l g hg =>
    hplaced ▸ List.mem_map.mpr ⟨_, LabelFrames.mem_of_awaited hg, rfl⟩
  obtain ⟨hhandler, hknows, htyped⟩ := htable _ hholds
  have htyped' := htyped (fun l => ∃ j ∈ G.plan.code.instructions, l ∈ j.targets) _
    (fun i hi l hl => ⟨i, hi, hl⟩) (on.allows hbody hhandler hknows)
  have hroom : (G.beginning t.awaited on.first).Room [] := Graft.room_beginning on.first_wellFormed
  have hentrance : (G.entrance on.first).WellFormed G.size := hroom.frame_wellFormed nofun
  have hinstructions : e.code.instructions.toList = e.instructions := List.toList_toArray
  rw [← hinstructions] at htyped'
  obtain ⟨known, hbounds, hfirst, hpermits, hlabels⟩ := Typed.bounds htyped' hentrance
    (fun l g hg => hcovers.wellFormed l g (LabelFrames.mem_of_awaited hg))
    (fun l g hg => Array.mem_iff_getElem?.mp (Code.mem_placed.mp (hawaited l g hg)))
    fun index f f' x target hP hedge => hP.1 x target hedge
  refine ⟨known, hbounds, hfirst, fun index i g hi hg => ?_, fun i hi l hl => ?_⟩
  · obtain ⟨f', -, hrecalls⟩ := hpermits _ g hg
    exact hrecalls index i hi rfl
  · rcases hlabels i hi l hl with hnamed | ⟨g, hg⟩
    · exact .inr hnamed
    · exact .inl (hawaited l g hg)

end Grafted

end Resumption
