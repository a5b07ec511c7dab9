import Resumption.Proofs.Instrument.RoundTrip
import Resumption.Proofs.Machine.Throwing

/-!
# The handler that undoes a failed restore

The last handler of a suspendable method covers all of its code and catches everything. While the
continuation is still loading it resets it and tells the allocator; in any case it throws again.

* **`Generated.Laid.handlers_split`**: the handlers of the body as written come first. They cover what
  they covered, and neither the entry nor the last handler.
* **`Generated.Laid.throws_exit`**: what the last handler does with an exception.
* **`Generated.Laid.throws`**: an exception that the method does not catch itself.
-/

namespace Resumption

/-- Lists that are related pairwise, up to the last items. -/
theorem forall₂_concat {α β : Type} {R : α → β → Prop} {xs : List α} {x : α} {zs : List β}
    (h : List.Forall₂ R (xs ++ [x]) zs) : ∃ ys y, zs = ys ++ [y] ∧ List.Forall₂ R xs ys ∧ R x y := by
  have hreverse := List.rel_reverse h
  rw [List.reverse_append, List.reverse_singleton, List.singleton_append] at hreverse
  obtain ⟨y, ys, hlast, hrest, heq⟩ := List.forall₂_cons_left_iff.mp hreverse
  refine ⟨ys.reverse, y, ?_, ?_, hlast⟩
  · rw [← List.reverse_reverse zs, heq, List.reverse_cons]
  · rw [← List.reverse_reverse xs]
    exact List.rel_reverse hrest

/-- A resolved handler with the type that it catches. -/
theorem Code.mem_zip_caught {positions : LabelPositions} {handlers : List Handler}
    {ranges : List HandlerRange}
    (h : List.Forall₂ (fun x range => resolve positions x = .ok range) handlers ranges)
    {p : HandlerRange × Option ClassName} (hp : p ∈ ranges.zip (handlers.map (·.caught))) :
    ∃ x ∈ handlers, p.2 = x.caught ∧ resolve positions x = .ok p.1 := by
  induction h with
  | nil => cases hp
  | @cons x range _ _ hfirst _ ih =>
    rw [List.map_cons, List.zip_cons_cons] at hp
    rcases List.mem_cons.mp hp with rfl | hp
    · exact ⟨x, List.mem_cons_self .., rfl, hfirst⟩
    · obtain ⟨x', hx', hcaught, hresolve⟩ := ih hp
      exact ⟨x', List.mem_cons_of_mem _ hx', hcaught, hresolve⟩

/-- Does the handler cover an instruction of the code? -/
def Code.Guards (c : Code) (x : Handler) (index : Nat) : Prop :=
  ∃ start stop, c.instructions[start]? = some (.label x.start) ∧
    c.instructions[stop]? = some (.label x.stop) ∧ start ≤ index ∧ index < stop

namespace Generated

variable {settings : Settings} {h : Hierarchy} {owner : ClassName} {method : Method}
  {made : SuspendableMethod} (g : Generated settings h owner method made)

/-- How the code is laid out. -/
structure Laid where
  /-- the variables of generated code -/
  l : Layout
  /-- the code is laid out with them -/
  shape : g.parts.Shape l g.size
  /-- for these settings -/
  settings_eq : l.settings = settings
  /-- and for this plan -/
  plan_eq : l.plan = g.plan
  /-- with variables for monitors if the body enters any -/
  monitors_eq : l.monitors.isSome = g.plan.code.hasMonitors
  /-- they are where they should be -/
  ready : l.Ready g.size

theorem laid : Nonempty g.Laid := by
  obtain ⟨l, hsettings, hplan, hmonitors, hready, ⟨shape⟩⟩ := expansion_shape g.parts_eq
  exact ⟨⟨l, shape, hsettings, hplan, hmonitors, hready⟩⟩

/-- The layout that a point was located in. -/
def Located.laid {g : Generated settings h owner method made} {p : SuspendPoint}
    (at_ : g.Located p) : g.Laid :=
  ⟨at_.l, at_.shape, at_.settings_eq, at_.plan_eq, at_.monitors_eq, at_.ready⟩

variable {g}

/-- A label of the body as written stands where the code of its instruction begins. -/
theorem Laid.find_written (at_ : g.Laid) {x : Label} {index : Nat}
    (hx : g.plan.code.instructions[index]? = some (.label x)) :
    g.body.positions.find x = .ok (g.parts.position index) ∧
      g.parts.position index < g.parts.exitPosition := by
  have hget : at_.l.plan.code.instructions.toList.zipIdx[index]? = some (.label x, index) := by
    rw [at_.plan_eq, List.getElem?_zipIdx, Array.getElem?_toList, hx, Nat.zero_add]
    rfl
  obtain ⟨piece, hpiece, his⟩ := forall₂_getElem? at_.shape.pieces hget
  have hnone : at_.l.plan.points.find? (·.index = index) = none := by
    -- all points are calls
    refine List.find?_eq_none.mpr fun p hp heq => ?_
    rw [at_.plan_eq, (planMethod_inv g.plan_eq).2.2.2.2] at hp
    obtain ⟨ref, kind, -, hcall, -⟩ := mem_suspendPoints hp
    rw [of_decide_eq_true heq, hx] at hcall
    cases hcall
  have hkept : piece.inPlace = [.label x] := by
    rw [his.keep_eq hnone]
    rfl
  have hat := Expansion.has_inPlace g.body_has hpiece
  have hsucc := Expansion.position_succ hpiece
  have hle := g.parts.position_le_exit (index + 1)
  rw [hkept] at hat hsucc
  exact ⟨Body.find_label g.body_eq hat, by rw [hsucc] at hle; exact hle⟩

/-- Labels of handlers as written stand in the code as written. -/
theorem written_labels {x : Handler} (hx : x ∈ g.plan.code.handlers) : ∃ start stop : Nat,
    g.plan.code.instructions[start]? = some (.label x.start) ∧
      g.plan.code.instructions[stop]? = some (.label x.stop) := by
  obtain ⟨analyzed⟩ := analyzeCode_analyzed (planMethod_inv g.plan_eq).2.2.2.1
  obtain ⟨range, -, hresolve⟩ := (mem_of_forall₂ analyzed.ranges_resolve).1 x hx
  obtain ⟨hstart, hstop, -⟩ := Code.resolve_ok.mp hresolve
  exact ⟨_, _, (Code.find_iff analyzed.positions_eq).mp hstart,
    (Code.find_iff analyzed.positions_eq).mp hstop⟩

/-- Is this a handler of the body as written, where it is in the generated body? -/
def Moved (g : Generated settings h owner method made)
    (handler : HandlerRange × Option ClassName) : Prop :=
  ∃ x ∈ g.plan.code.handlers, ∃ start stop, handler.2 = x.caught ∧
    g.plan.code.instructions[start]? = some (.label x.start) ∧
    g.plan.code.instructions[stop]? = some (.label x.stop) ∧
    handler.1.start = g.parts.position start ∧ handler.1.stop = g.parts.position stop

/-- Where the code of the method begins that its last handler covers. -/
def Laid.startPosition (at_ : g.Laid) : Nat :=
  (at_.l.announce "entry").length + 2 + at_.l.createLockState.length

theorem Laid.find_start (at_ : g.Laid) :
    g.body.positions.find at_.shape.bodyStart = .ok at_.startPosition := by
  have hat := Expansion.has_entry g.body_has
  rw [at_.shape.entry_eq, Layout.entry, Layout.start] at hat
  simp only [List.append_assoc] at hat
  obtain ⟨-, hat⟩ := Body.Has.append_iff.mp hat
  obtain ⟨-, hat⟩ := Body.Has.append_iff.mp hat
  obtain ⟨-, hat⟩ := Body.Has.append_iff.mp hat
  rw [Nat.zero_add] at hat
  exact Body.find_label g.body_eq hat

theorem Laid.find_end (at_ : g.Laid) :
    g.body.positions.find at_.shape.bodyEnd = .ok g.parts.exitPosition ∧
      g.body.positions.find at_.shape.handler = .ok (g.parts.exitPosition + 1) := by
  have hat := Expansion.has_exit g.body_has
  rw [at_.shape.exit_eq, Layout.exit] at hat
  simp only [List.append_assoc, List.cons_append, List.nil_append] at hat
  exact ⟨Body.find_label g.body_eq hat, Body.find_label g.body_eq (Body.Has.cons_iff.mp hat).2⟩

/-- **The handlers of a suspendable method**: those of the body as written, then the one that undoes
a failed restore. -/
theorem Laid.handlers_split (at_ : g.Laid) : ∃ before,
    g.body.handlers = before ++ [(⟨at_.startPosition, g.parts.exitPosition,
      g.parts.exitPosition + 1⟩, none)] ∧ ∀ handler ∈ before, g.Moved handler := by
  obtain ⟨-, hpositions, ranges, hranges, hhandlers⟩ := Body.ofCode_inv g.body_eq
  replace hranges := (Code.handlerRanges_ok hpositions).mp hranges
  have hplan : at_.l.plan.code = g.plan.code := by rw [at_.plan_eq]
  rw [g.handlers_eq, at_.shape.handlers_eq, hplan] at hranges hhandlers
  obtain ⟨written, ⟨start, stop, entry⟩, rfl, hwritten, hlast⟩ := forall₂_concat hranges
  obtain ⟨hstart, hstop, hentry⟩ := Code.resolve_ok.mp hlast
  cases hstart.symm.trans at_.find_start
  cases hstop.symm.trans at_.find_end.1
  cases hentry.symm.trans at_.find_end.2
  refine ⟨written.zip (g.plan.code.handlers.map (·.caught)), ?_, fun handler hmem => ?_⟩
  · rw [hhandlers, List.map_append, List.zip_append (by simp [hwritten.length_eq])]
    rfl
  · obtain ⟨x, hx, hcaught, hresolve⟩ := Code.mem_zip_caught hwritten hmem
    obtain ⟨start, stop, hxstart, hxstop⟩ := written_labels hx
    obtain ⟨hstart, hstop, -⟩ := Code.resolve_ok.mp hresolve
    refine ⟨x, hx, start, stop, hcaught, hxstart, hxstop, ?_, ?_⟩
    · exact Except.ok.inj (hstart.symm.trans (at_.find_written hxstart).1)
    · exact Except.ok.inj (hstop.symm.trans (at_.find_written hxstop).1)

/-- The handlers of the body as written do not cover what was put around it. -/
theorem Laid.moved_apart (at_ : g.Laid) {handler : HandlerRange × Option ClassName}
    (h : g.Moved handler) {index : Nat}
    (hindex : index < g.parts.entry.length ∨ g.parts.exitPosition ≤ index) :
    handler.1.covers index = false := by
  obtain ⟨x, -, start, stop, -, -, hxstop, hstart, hstop⟩ := h
  have hbefore : g.parts.entry.length ≤ g.parts.position start := Nat.le_add_right ..
  have hafter := (at_.find_written hxstop).2
  rw [← hstart] at hbefore
  rw [← hstop] at hafter
  simp only [HandlerRange.covers, Bool.and_eq_false_iff, decide_eq_false_iff_not]
  omega

/-- A handler that covers code of an instruction covers the instruction in the body as written. -/
theorem Moved.guards {handler : HandlerRange × Option ClassName} (h : g.Moved handler)
    {index position : Nat} (hfrom : g.parts.position index ≤ position)
    (hto : position < g.parts.position (index + 1)) (hcovers : handler.1.covers position = true) :
    ∃ x ∈ g.plan.code.handlers, handler.2 = x.caught ∧ g.plan.code.Guards x index := by
  obtain ⟨x, hx, start, stop, hcaught, hxstart, hxstop, hstart, hstop⟩ := h
  simp only [HandlerRange.covers, Bool.and_eq_true, decide_eq_true_eq, hstart, hstop] at hcovers
  refine ⟨x, hx, hcaught, start, stop, hxstart, hxstop, Nat.le_of_not_lt fun hlt => ?_,
    Nat.lt_of_not_le fun hle => ?_⟩
  · have hmono : g.parts.position (index + 1) ≤ g.parts.position start :=
      Expansion.position_mono hlt
    omega
  · have hmono := Expansion.position_mono (e := g.parts) hle
    omega

end Generated

/-! ## The last handler -/

/-- The machine after a failed restore was undone. -/
def Machine.undone (m : Machine) (settings : Settings) (cont : Ref) (c : Continuation Ref) :
    Machine :=
  let m := m.put cont (.continuation c.reset)
  match settings.allocator with
  | .custom _ => { m with pool := { m.pool with pending := 0, rollbacks := m.pool.rollbacks + 1 } }
  | .instruction => m

/-- How often an allocator is told that a restore failed. -/
def Settings.rollbacks (settings : Settings) : Nat :=
  match settings.allocator with
  | .custom _ => 1
  | .instruction => 0

namespace Machine

variable (m : Machine) (settings : Settings) {cont : Ref} (c : Continuation Ref)

theorem undone_heap : (m.undone settings cont c).heap = (m.put cont (.continuation c.reset)).heap := by
  rw [undone]
  split <;> rfl

theorem object?_undone (r : Ref) :
    (m.undone settings cont c).object? r = (m.put cont (.continuation c.reset)).object? r := by
  rw [object?, undone_heap, object?]

theorem precedes_undone (hc : m.object? cont = some (.continuation c)) :
    m.Precedes (m.undone settings cont c) := by
  refine (Adds.put m hc (.continuation c c.reset)).later.trans ?_
  rw [undone]
  split
  · exact .of_heap_eq rfl rfl rfl rfl (fun _ h => h) rfl rfl
  · exact .refl _

theorem undone_rollbacks :
    (m.undone settings cont c).pool.rollbacks = m.pool.rollbacks + settings.rollbacks := by
  rw [undone, Settings.rollbacks]
  split <;> rfl

end Machine

theorem Native.run_reset {m : Machine} {r : Ref} {c : Continuation Ref}
    (h : m.object? r = some (.continuation c)) :
    run [.ref r] .reset m = .ok none (m.put r (.continuation c.reset)) := by
  simp only [run, Run.argument, bind, EStateM.bind, List.getElem?_cons_zero, pure, EStateM.pure,
    Run.continuationAt_of_some h, Run.setObject_eq]

theorem Step.execute_throw {callees : Callees} {a : Activation} {r : Ref} {s : List Value}
    {k : Nat} {m : Machine} :
    execute callees .throw (a.placed (.ref r :: s) k) m = .error (.exception r) m := rfl

namespace Body

variable {run : MethodRunner} {body : Body} {a : Activation} {s : List Value} {m : Machine}
  {l : Layout} {k : Nat} {cont : Ref} {c : Continuation Ref}

/-- Going elsewhere in a mode that is not expected. -/
theorem reaches_elsewhere (hrun : Plain run) {mode : Mode} {otherwise : Label} {target : Nat}
    (hat : body.Has k (l.unlessMode mode otherwise)) (hserves : m.Serves l.settings)
    (hcont : a.valueAt l.continuation.slot = .ref cont)
    (hc : m.object? cont = some (.continuation c)) (hmode : c.mode ≠ mode)
    (htarget : body.positions.find otherwise = .ok target) :
    Reaches (Run.callees run) body (a.placed s k) m (a.placed s target) m := by
  have hasked : straight (Run.callees run) [l.continuation.load,
      callVirtual Interface.Continuation.getMode, .pushInt mode.toInt32] (a.placed s k) m =
        .ok (a.placed (.int mode.toInt32 :: .int c.mode.toInt32 :: s) (k + 3)) m := by
    simp only [Lease.load]
    refine (straight_load (a := a.placed s k) (n := 0) hcont (by simp)).trans ?_
    rw [straight_getMode hserves hc, straight_pushInt, straight_nil]
    rfl
  have hdiffer : Comparison.ne.holds (compare c.mode.toInt32.toInt mode.toInt32.toInt) = true := by
    revert hmode
    cases c.mode <;> cases mode <;> decide
  exact (Reaches.straight hrun (hat.slice 0 3) hasked).trans
    (.ifInt (hat.slice 3 1) htarget hdiffer)

/-- Undoing the restore. -/
theorem straight_undo {n : Nat} (hserves : m.Serves l.settings)
    (hcont : a.valueAt l.continuation.slot = .ref cont)
    (hc : m.object? cont = some (.continuation c)) :
    straight (Run.callees run)
        ([l.continuation.load, callVirtual Interface.Continuation.reset] ++ l.rollback)
        (a.moved s n) m =
      .ok (a.moved s (n + ([l.continuation.load, callVirtual Interface.Continuation.reset] ++
        l.rollback).length)) (m.undone l.settings cont c) := by
  have hreset : ∀ rest, straight (Run.callees run)
      ([l.continuation.load, callVirtual Interface.Continuation.reset] ++ rest) (a.moved s n) m =
        straight (Run.callees run) rest (a.moved s (n + 2)) (m.put cont (.continuation c.reset)) := by
    intro rest
    simp only [Lease.load, List.cons_append, List.nil_append]
    rw [straight_load hcont (by simp)]
    exact straight_native (s := s) (hserves.standard (_, .reset) (by decide)) (Native.run_reset hc)
      rfl rfl rfl
  rw [hreset, Layout.rollback, Machine.undone]
  cases hallocator : l.settings.allocator with
  | instruction => rfl
  | custom owner =>
    have hfound : m.natives.lookup (Interface.rollback owner) = some .rollback :=
      hserves.allocator owner hallocator (_, .rollback) (by
        rw [Machine.allocatorNatives]
        exact List.mem_append_right _ (List.mem_cons_of_mem _ (List.mem_singleton_self _)))
    have hrollback : Native.run [] .rollback (m.put cont (.continuation c.reset)) = .ok none
        { m.put cont (.continuation c.reset) with
          pool := { m.pool with pending := 0, rollbacks := m.pool.rollbacks + 1 } } := rfl
    exact straight_native (s := s) hfound hrollback rfl rfl rfl

end Body

namespace Generated

variable {settings : Settings} {h : Hierarchy} {owner : ClassName} {method : Method}
  {made : SuspendableMethod} {g : Generated settings h owner method made}

/-- **The last handler** throws again, and undoes the restore before if the continuation is still
loading. -/
theorem Laid.throws_exit (at_ : g.Laid) {limit depth : Nat} {a : Activation} {m : Machine} {r cont : Ref}
    {c : Continuation Ref} {thrown : ClassName} {fields : FieldValues} (hserves : m.Serves settings)
    (hcont : a.valueAt g.size = .ref cont) (hc : m.object? cont = some (.continuation c))
    (hr : m.object? r = some (.instance thrown fields)) :
    Body.Throws (Run.callees (runMethod limit depth)) g.body
      (a.placed [.ref r] (g.parts.exitPosition + 1)) m (.exception r)
      (if c.mode = .loading then m.undone settings cont c else m) := by
  have hrun := Body.plain_runMethod limit depth
  have hserves' : m.Serves at_.l.settings := by
    rw [at_.settings_eq]
    exact hserves
  have hcont' : a.valueAt at_.l.continuation.slot = .ref cont := by
    rw [at_.ready.continuation_slot]
    exact hcont
  have hat := Expansion.has_exit g.body_has
  rw [at_.shape.exit_eq, Layout.exit] at hat
  rw [List.append_assoc, List.append_assoc, List.append_assoc] at hat
  obtain ⟨hlabels, hat⟩ := Body.Has.append_iff.mp hat
  obtain ⟨hmode, hat⟩ := Body.Has.append_iff.mp hat
  rw [← List.append_assoc] at hat
  obtain ⟨hundo, hrethrow⟩ := Body.Has.append_iff.mp hat
  have hlabel : Body.Reaches (Run.callees (runMethod limit depth)) g.body
      (a.placed [.ref r] (g.parts.exitPosition + 1)) m
      (a.placed [.ref r] (g.parts.exitPosition + 2)) m :=
    .label (hlabels.slice 1 1)
  have hfind := Body.find_label g.body_eq hrethrow
  generalize hposition : g.parts.exitPosition + _ + _ + _ = position at hrethrow hfind
  have hafter : g.parts.exitPosition ≤ position + 1 := by omega
  -- nothing covers the last handler itself
  have hthrows : ∀ m' : Machine, m'.object? r = some (.instance thrown fields) →
      Body.Throws (Run.callees (runMethod limit depth)) g.body (a.placed [.ref r] position) m'
        (.exception r) m' := by
    intro m' hr'
    refine (Body.Reaches.label hrethrow).throws (Body.throws_of_passes
      (Body.Has.cons_iff.mp hrethrow).2.getElem? Step.execute_throw hr' fun handler hmem => ?_)
    obtain ⟨before, hsplit, hbefore⟩ := at_.handlers_split
    rw [hsplit] at hmem
    intro hcovers
    rcases List.mem_append.mp hmem with hmem | hmem
    · rw [Activation.placed_index, at_.moved_apart (hbefore handler hmem) (.inr hafter)] at hcovers
      cases hcovers
    · obtain rfl := List.mem_singleton.mp hmem
      have hbefore := (Bool.and_eq_true_iff.mp hcovers).2
      exact absurd (of_decide_eq_true hbefore) (Nat.not_lt.mpr hafter)
  by_cases hloading : c.mode = .loading
  · rw [if_pos hloading]
    have hinMode := Body.Reaches.block (a := a) (s := [.ref r]) hrun (hloading ▸ hmode)
      (Body.straight_inMode (a := a.placed _ _) hserves' hcont' hc)
    have hundone := Body.Reaches.block (a := a) (s := [.ref r]) hrun hundo
      (Body.straight_undo (a := a.placed _ _) hserves' hcont' hc)
    rw [hposition, at_.settings_eq] at hundone
    have hr' : (m.undone settings cont c).object? r = some (.instance thrown fields) := by
      have hne : r ≠ cont := by
        rintro rfl
        rw [hc] at hr
        cases hr
      rw [Machine.object?_undone, Machine.object?_put_of_ne hne, hr]
    exact ((hlabel.trans hinMode).trans hundone).throws (hthrows _ hr')
  · rw [if_neg hloading]
    exact (hlabel.trans (Body.reaches_elsewhere hrun hmode hserves' hcont' hc hloading hfind)).throws
      (hthrows m hr)

/-- **An exception that the method does not catch itself** goes to the last handler, which covers
everything from the label that it starts with. -/
theorem Laid.throws (at_ : g.Laid) {limit depth : Nat} {a : Activation} {m m' : Machine}
    {i : Instruction} {r cont : Ref} {c : Continuation Ref} {thrown : ClassName}
    {fields : FieldValues} (hget : g.body.instructions[a.index]? = some i)
    (hexec : Step.execute (Run.callees (runMethod limit depth)) i a m = .error (.exception r) m')
    (hr : m'.object? r = some (.instance thrown fields)) (hfrom : at_.startPosition ≤ a.index)
    (hto : a.index < g.parts.exitPosition)
    (hpasses : ∀ handler, g.Moved handler → Body.Passes m' a.index thrown handler)
    (hserves : m'.Serves settings) (hcont : a.valueAt g.size = .ref cont)
    (hc : m'.object? cont = some (.continuation c)) :
    Body.Throws (Run.callees (runMethod limit depth)) g.body a m (.exception r)
      (if c.mode = .loading then m'.undone settings cont c else m') := by
  obtain ⟨before, hsplit, hbefore⟩ := at_.handlers_split
  refine (Body.Reaches.caught hget hexec hr hsplit
    (fun handler hmem => hpasses handler (hbefore handler hmem)) ?_).throws
    (at_.throws_exit hserves hcont hc hr)
  simp only [HandlerRange.covers, Bool.and_eq_true, decide_eq_true_eq]
  exact ⟨hfrom, hto⟩

end Generated

end Resumption
