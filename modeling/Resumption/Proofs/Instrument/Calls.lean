import Resumption.Proofs.Instrument.Points
import Resumption.Proofs.Subroutine.Inlining

/-!
# What suspendable code calls

Generated code calls methods of the runtime interface. Those that make a frame are called by the
code that saves one; all other blocks call what is in `Interface.plain`, and the method of an
allocator that undoes a failed restore (`Layout.calls_entry` up to `Layout.calls_restoreBlock`). The
body as written calls what it did before, also once its subroutines are inlined
(`Subroutine.inline_calls`).

A fact about methods that holds of all these (`R`) holds so of all calls in such code (`Calls`).
-/

namespace Resumption

/-- The method that an instruction calls. -/
def Instruction.callee? : Instruction → Option MethodRef
  | .invoke _ ref => some ref
  | _ => none

/-- Only such methods are called. -/
def Calls (R : MethodRef → Prop) (is : List Instruction) : Prop :=
  ∀ i ∈ is, ∀ ref, i.callee? = some ref → R ref

variable {R : MethodRef → Prop} {is js : List Instruction}

namespace Calls

/-- No code calls nothing. -/
theorem nil : Calls R [] := List.forall_mem_nil _

/-- An instruction calls what it names. -/
theorem cons {i : Instruction} (hi : ∀ ref, i.callee? = some ref → R ref) (his : Calls R is) :
    Calls R (i :: is) :=
  List.forall_mem_cons.mpr ⟨hi, his⟩

theorem singleton {i : Instruction} (hi : ∀ ref, i.callee? = some ref → R ref) : Calls R [i] :=
  cons hi nil

/-- Code calls what its pieces call. -/
theorem append (his : Calls R is) (hjs : Calls R js) : Calls R (is ++ js) :=
  List.forall_mem_append.mpr ⟨his, hjs⟩

/-- Repeated code calls what its pieces call. -/
theorem flatMap {α : Type} {xs : List α} {f : α → List Instruction} (h : ∀ x ∈ xs, Calls R (f x)) :
    Calls R (xs.flatMap f) := by
  intro i hi
  obtain ⟨x, hx, hi⟩ := List.mem_flatMap.mp hi
  exact h x hx i hi

theorem map {α : Type} (xs : List α) {f : α → Instruction}
    (h : ∀ x ref, (f x).callee? = some ref → R ref) : Calls R (xs.map f) := by
  intro i hi
  obtain ⟨x, -, rfl⟩ := List.mem_map.mp hi
  exact h x

/-- Code without calls. -/
theorem of_none (h : is.all (·.callee?.isNone) = true) : Calls R is := by
  intro i hi ref href
  have hnone := List.all_eq_true.mp h i hi
  rw [href] at hnone
  cases hnone

/-- Code calls within every larger set of methods. -/
theorem mono {R' : MethodRef → Prop} (h : Calls R is) (himp : ∀ ref, R ref → R' ref) :
    Calls R' is := fun i hi ref href => himp ref (h i hi ref href)

end Calls

/-! ## Subroutines -/

namespace Subroutine

variable {o o' : Output}

/-- Only such methods are called in what was written. -/
def Output.Calls (R : MethodRef → Prop) (o : Output) : Prop :=
  ∀ e ∈ o.lines, ∀ ref, e.instruction.callee? = some ref → R ref

/-- One more instruction calls what it names. -/
theorem Output.Calls.emit (h : o.Calls R) {i : Instruction}
    (hi : ∀ ref, i.callee? = some ref → R ref) (origin copy : Option Nat) :
    (o.emit i origin copy).Calls R := by
  intro e he
  rw [Output.lines_emit] at he
  rcases List.mem_append.mp he with he | he
  · exact h e he
  · cases List.mem_singleton.mp he
    exact hi

/-- Rewriting an instruction keeps what it calls. -/
theorem callee?_rewrite (header : Header) (i : Instruction) :
    (header.rewrite i).callee? = i.callee? := by
  cases i <;> rfl

/-- A copy of a subroutine has the instructions of the subroutine, beside jumps and labels. -/
theorem inlineCall_calls {s : Source} (hs : Calls R s.code.instructions.toList)
    {fuel call : Nat} {target : Label} {active : List Label} (ho : o.Calls R)
    (h : s.inlineCall fuel call target active o = .ok o') : o'.Calls R := by
  induction fuel generalizing call target active o o' with
  | zero => cases h
  | succ fuel ih =>
    obtain ⟨start, slot, body, o₁, -, -, hbody, hfold, rfl⟩ := Source.inlineCall_inv h
    refine Output.Calls.emit ?_ nofun _ _
    refine foldlM_keeps (P := Output.Calls R) (fun index hindex b b' hb hstep => ?_) ?_ hfold
    · obtain ⟨i, hi⟩ := (Source.body_isBody hbody).2.instructions index hindex
      rcases Source.copyStep_cases hi hstep with ⟨l, rfl, hcall⟩ | ⟨-, -, rfl⟩
      · exact ih hb hcall
      · refine hb.emit ?_ _ _
        rw [callee?_rewrite]
        exact hs i (Array.mem_toList_iff.mpr (Array.mem_of_getElem? hi))
    · intro e he
      rw [lines_opened] at he
      rcases List.mem_append.mp he with he | he
      · exact ho e he
      · cases List.mem_singleton.mp he
        exact nofun

/-- **Inlining** calls no method that was not called before. -/
theorem inline_calls {c c' : Code} (hc : Calls R c.instructions.toList)
    (h : inline c = .ok c') : Calls R c'.instructions.toList := by
  rcases inline_inv h with ⟨-, rfl⟩ | ⟨positions, ranges, f, labels, extras, hinlined⟩
  · exact hc
  · have hlines : f.Calls R := by
      have hblank : (Source.blank ⟨c, positions⟩).Calls R := List.forall_mem_nil _
      refine foldlM_keeps (fun x hx b b' hb hstep => ?_) hblank hinlined.written
      obtain ⟨i, index⟩ := x
      rcases Source.writeStep_cases hstep with ⟨l, rfl, hcall⟩ | ⟨-, rfl⟩
      · exact inlineCall_calls hc hb hcall
      · exact hb.emit (hc i (List.fst_mem_of_mem_zipIdx hx)) _ _
    intro i hi
    rw [hinlined.instructions] at hi
    obtain ⟨e, he, rfl⟩ := List.mem_map.mp hi
    obtain ⟨q, hq⟩ := List.mem_iff_getElem?.mp he
    rcases spread_cases labels hq with ⟨p, -, hp⟩ | ⟨p, j, -, -, hj⟩
    · exact hlines e (List.mem_of_getElem? hp)
    · obtain ⟨l, -, rfl⟩ := mem_marksAt.mp (List.mem_of_getElem? hj)
      exact nofun

end Subroutine

/-! ## Blocks -/

/-- The methods of the interface that do not make frames. -/
def Interface.plain : List MethodRef :=
  [Continuation.getMode, Continuation.setMode, Continuation.loadNextMethodState, Continuation.reset,
   Continuation.invalidContinuationPoint, MethodState.getContinuationPoint, MethodState.getMethodId,
   MethodState.getMethodVersion, MethodState.getLockState, MethodState.getLocals,
   MethodState.getStack, Data.getInts, Data.getLongs, Data.getFloats, Data.getDoubles,
   Data.getObjects, LockState.create, LockState.enter, LockState.exit, LockState.toArray,
   Print.println]

/-- Does it hold of the methods that blocks call which do not make frames? -/
structure Settings.Blocks (settings : Settings) (R : MethodRef → Prop) : Prop where
  /-- the methods that generated code calls in any case -/
  plain : ∀ ref ∈ Interface.plain, R ref
  /-- what it calls to give up what the allocator has handed out -/
  rollback : ∀ owner, settings.allocator = .custom owner → R (Interface.rollback owner)

/-- Is every call in the code one of a method of the interface that does not make frames? -/
def callsPlain (is : List Instruction) : Bool :=
  is.all fun i => match i.callee? with
    | some ref => ref ∈ Interface.plain
    | none => true

namespace Layout

variable {l : Layout} {first : Nat}

/-- Blocks of fixed shape are checked by evaluation. -/
theorem calls_of_plain (hR : l.settings.Blocks R) (h : callsPlain is = true) : Calls R is := by
  intro i hi ref href
  have hplain := List.all_eq_true.mp h i hi
  rw [href] at hplain
  exact hR.plain ref (of_decide_eq_true hplain)

/-- Announcements call the runtime at most. -/
theorem calls_announce (hR : l.settings.Blocks R) (what : String) : Calls R (l.announce what) := by
  rw [announce]
  cases l.settings.announcement <;> exact calls_of_plain hR rfl

/-- A test of the mode calls the runtime at most. -/
theorem calls_unlessMode (hR : l.settings.Blocks R) (mode : Mode) (otherwise : Label) :
    Calls R (l.unlessMode mode otherwise) := calls_of_plain hR rfl

/-- A change of the mode calls the runtime at most. -/
theorem calls_setMode (hR : l.settings.Blocks R) (mode : Mode) : Calls R (l.setMode mode) :=
  calls_of_plain hR rfl

/-- A loop over monitors calls what its body calls. -/
theorem calls_monitorLoop {loop : MonitorVariables → Label → Label → List Instruction}
    (hloop : ∀ m start stop, Calls R (loop m start stop)) {code : List Instruction}
    (h : IsMonitorLoop l loop code) : Calls R code := by
  rw [IsMonitorLoop] at h
  cases hmonitors : l.monitors with
  | none =>
    rw [hmonitors] at h
    rw [h]
    exact .nil
  | some m =>
    rw [hmonitors] at h
    obtain ⟨start, stop, rfl⟩ := h
    exact hloop m start stop

/-- Leaving monitors calls the runtime at most. -/
theorem calls_exits (hR : l.settings.Blocks R) {exits : List Instruction}
    (h : IsMonitorLoop l exitLoop exits) : Calls R exits :=
  calls_monitorLoop (fun _ _ _ => calls_of_plain hR rfl) h

/-- The entry of a method calls the runtime at most. -/
theorem calls_entry (hR : l.settings.Blocks R) {bodyStart written invalid : Label}
    {restores : List Label} {enters : List Instruction}
    (henters : IsMonitorLoop l l.enterLoop enters) :
    Calls R (l.entry bodyStart written invalid restores enters) := by
  have hstart : Calls R (l.start bodyStart) := by
    refine .append (.append (.append (calls_announce hR _) (calls_of_plain hR rfl)) ?_)
      (calls_of_plain hR rfl)
    rw [createLockState]
    cases l.monitors <;> exact calls_of_plain hR rfl
  have hload : Calls R (l.loadState invalid enters) :=
    .append (.append (.append (calls_of_plain hR rfl) (calls_of_plain hR rfl))
      (calls_of_plain hR rfl)) (calls_monitorLoop (fun _ _ _ => calls_of_plain hR rfl) henters)
  exact .append (.append (.append (.append (.append hstart (calls_unlessMode hR _ _))
    (calls_announce hR _)) hload) (calls_of_plain hR rfl)) (calls_of_plain hR rfl)

/-- The end of a method calls the runtime at most. -/
theorem calls_exit (hR : l.settings.Blocks R) (bodyEnd handler rethrow : Label) :
    Calls R (l.exit bodyEnd handler rethrow) := by
  refine .append (.append (.append (.append (calls_of_plain hR rfl) (calls_unlessMode hR _ _))
    (calls_of_plain hR rfl)) ?_) (calls_of_plain hR rfl)
  rw [rollback]
  cases hallocator : l.settings.allocator with
  | «instruction» => exact .nil
  | custom owner =>
    refine .singleton fun ref href => ?_
    cases href
    exact hR.rollback owner hallocator

/-- A kept instruction calls what it called. -/
theorem calls_keep (hR : l.settings.Blocks R) {i : Instruction}
    (hi : ∀ ref, i.callee? = some ref → R ref) : Calls R (l.keep i) := by
  unfold keep
  split
  · split
    · exact .singleton hi
    · exact .nil
  · exact calls_of_plain hR rfl
  · exact calls_of_plain hR rfl
  · exact .singleton hi

/-- Restoring values calls the runtime at most. -/
theorem calls_restoresData (hR : l.settings.Blocks R) {held : List Lease} {getter : MethodRef}
    {values : List SavedValue} {code : List Instruction} (hgetter : getter ∈ Interface.plain)
    (h : RestoresData l first held getter values code) : Calls R code := by
  obtain ⟨blocks, hblocks, rfl⟩ := h
  intro i hi
  obtain ⟨block, hblock, hi⟩ := List.mem_flatten.mp hi
  obtain ⟨kind, -, hkind⟩ := (mem_of_forall₂ hblocks).2 block hblock
  refine (?_ : Calls R block) i hi
  cases hkind with
  | nothing => exact .nil
  | elements array =>
    refine .append (.append (.of_none rfl : Calls R [l.state.load]) (.cons (fun ref href => ?_)
      (?_ : Calls R [callVirtual kind.getter, array.store]))) (.flatMap fun value _ => ?_)
    · cases href
      exact hR.plain getter hgetter
    · cases kind <;> exact calls_of_plain hR rfl
    · refine .append (.append (.of_none rfl) ?_) (.of_none rfl)
      cases value.1.cast <;> exact .of_none rfl

theorem calls_spillStack (leases : List (Option Lease)) : Calls R (spillStack leases) :=
  .map _ fun lease => by cases lease <;> exact nofun

theorem calls_reloadStack (leases : List (Option Lease)) : Calls R (reloadStack leases) :=
  .map _ fun lease => by cases lease <;> exact nofun

/-- A restore block calls the runtime at most. -/
theorem calls_restoreBlock (hR : l.settings.Blocks R) {held : List Lease} {p : SuspendPoint}
    {leases : List (Option Lease)} {here resume : Label} {locals stack : List Instruction}
    (hlocals : RestoresData l first held Interface.MethodState.getLocals p.savedLocals locals)
    (hstack : RestoresData l first held Interface.MethodState.getStack
      (savedStack p.stackToSave leases) stack) :
    Calls R (l.restoreBlock p leases here resume locals stack) := by
  have hnulls : Calls R (restoreNulls p.nullLocals) := .flatMap fun _ _ => .of_none rfl
  have hresumed : Calls R (l.resumed p leases) := by
    unfold resumed
    split
    · exact .append (calls_setMode hR _) (calls_reloadStack leases)
    · exact .nil
  exact .append (.append (.append (.append (.append (.append (.of_none rfl) (calls_announce hR _))
    (calls_restoresData hR (by decide) hlocals)) hnulls)
    (calls_restoresData hR (by decide) hstack)) hresumed) (.of_none rfl)

theorem calls_clearAfterCall (i : Instruction) (saved : List SlotType) :
    Calls R (clearAfterCall i saved) := by
  unfold clearAfterCall
  split
  · exact .append (.map _ fun _ => nofun) (.map _ fun _ => nofun)
  · exact .nil

theorem calls_placeholderReturn (result : Option FieldType) : Calls R (placeholderReturn result) := by
  unfold placeholderReturn
  split <;> exact .of_none rfl

end Layout

end Resumption
