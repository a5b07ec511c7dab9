import Resumption.Proofs.Analysis.Searching
import Resumption.Proofs.Instrument.RestorePath

/-!
# Restore undoes save

A method that is suspended at a point hands over its state and returns. When it is called again while
its continuation is loading, with that state next, it goes on at the point as if it had never left.

* **`Generated.AtPoint`** and **`Generated.Suspends`** say when a method is suspended.
* **`Method.CalledAgain`** says how it is called again: other arguments, any later machine in which
  the objects that were saved are what they were.
* **`restore_undoes_save`** is the round trip.
-/

namespace Resumption

/-! ## Arguments -/

/-- The types of receiver and parameters. -/
def Method.argumentTypes (m : Method) (owner : ClassName) : List FieldType :=
  (if m.isStatic then [] else [.object owner]) ++ m.descriptor.parameters

/-- The position of the first continuation among the arguments, the receiver included. -/
def Method.continuationArgument (m : Method) : Nat :=
  (if m.isStatic then 0 else 1) + m.descriptor.parameters.findIdx (· = .object .continuation)

/-- The slots that arguments take. -/
def argumentSlots (arguments : List Value) : List Value :=
  arguments.flatMap fun v => if v.width = 2 then [v, .top] else [v]

theorem argumentSlots_cons_drop (v : Value) (arguments : List Value) :
    (argumentSlots (v :: arguments)).drop v.width = argumentSlots arguments := by
  rw [argumentSlots, List.flatMap_cons]
  rcases Activation.width_eq_one_or_two v with hv | hv
  · rw [if_neg (by omega), hv]
    rfl
  · rw [if_pos hv, hv]
    rfl

/-- The first continuation is in the slot that the method expects it in. -/
theorem continuationSlotFrom?_get {parameters : List FieldType} {arguments : List Value}
    {start slot : Nat} {v : Value} (hslot : continuationSlotFrom? start parameters = some slot)
    (hwidths : List.Forall₂ (fun t v => Value.width v = FieldType.width t) parameters arguments)
    (hv : arguments[parameters.findIdx (· = .object .continuation)]? = some v) :
    start ≤ slot ∧ (argumentSlots arguments)[slot - start]? = some v := by
  induction hwidths generalizing start with
  | nil => cases hslot
  | @cons t w parameters arguments hwidth _ ih =>
    rw [List.findIdx_cons] at hv
    by_cases hcont : t = .object .continuation
    · simp only [continuationSlotFrom?, hcont, if_true] at hslot
      split at hslot
      · cases hslot
        simp only [hcont, decide_true, cond_true, List.getElem?_cons_zero] at hv
        cases hv
        refine ⟨Nat.le_refl _, ?_⟩
        rw [Nat.sub_self, argumentSlots, List.flatMap_cons]
        split <;> rfl
      · cases hslot
    · simp only [continuationSlotFrom?, hcont, if_false] at hslot
      simp only [hcont, decide_false, cond_false, List.getElem?_cons_succ] at hv
      obtain ⟨hle, hget⟩ := ih hslot hv
      refine ⟨by omega, ?_⟩
      rw [← argumentSlots_cons_drop w, List.getElem?_drop, hwidth] at hget
      rw [← hget]
      congr 1
      omega

/-- The local of the continuation on entry. -/
theorem argumentLocals_continuation {m : Method} {owner : ClassName} {arguments : List Value}
    {slot : Nat} {v : Value} (hslot : m.continuationSlot? = some slot)
    (hwidths : List.Forall₂ (fun t v => Value.width v = FieldType.width t) (m.argumentTypes owner)
      arguments) (hv : arguments[m.continuationArgument]? = some v) :
    (argumentLocals arguments).getD slot .top = v := by
  have hget : (argumentSlots arguments)[slot]? = some v := by
    rw [Method.continuationSlot?] at hslot
    rw [Method.argumentTypes] at hwidths
    rw [Method.continuationArgument] at hv
    cases hstatic : m.isStatic with
    | true =>
      simp only [hstatic, if_true, List.nil_append, Nat.zero_add] at hslot hwidths hv
      exact (continuationSlotFrom?_get hslot hwidths hv).2
    | false =>
      simp only [hstatic, Bool.false_eq_true, if_false] at hslot hwidths hv
      cases hwidths with
      | @cons _ receiver _ arguments hreceiver hwidths =>
        rw [Nat.add_comm, List.getElem?_cons_succ] at hv
        obtain ⟨hle, hget⟩ := continuationSlotFrom?_get hslot hwidths hv
        have hnarrow : receiver.width = 1 := hreceiver
        rw [← argumentSlots_cons_drop receiver, List.getElem?_drop, hnarrow] at hget
        rw [← hget]
        congr 1
        omega
  have harray : (argumentLocals arguments)[slot]? = some v := by
    rw [argumentLocals, List.getElem?_toArray]
    exact hget
  rw [Array.getD_eq_getD_getElem?, harray]
  rfl

/-! ## Saved objects -/

namespace Machine

/-- The objects that saved values are in. -/
def dataObjects (m : Machine) : Value → List Ref
  | .ref r =>
    match m.object? r with
    | some (.data d) => r :: d.toList.filterMap Value.ref?
    | _ => [r]
  | _ => []

/-- The objects that a method state is made of: itself, its lock state and its values. -/
def frameObjects (m : Machine) (state : Ref) : List Ref :=
  match m.object? state with
  | some (.methodState s) =>
    state :: (s.lockState.ref?.toList ++ m.dataObjects s.locals ++ m.dataObjects s.stack)
  | _ => [state]

/-- Objects that are what they were. -/
def Keeps (objects : List Ref) (m m' : Machine) : Prop :=
  ∀ r ∈ objects, m'.object? r = m.object? r

variable {m m' : Machine}

theorem HoldsData.keeps {v : Value} {values : List SavedValue} {value : SavedValue → Value}
    (h : m.HoldsData v values value) (hkeeps : Keeps (m.dataObjects v) m m') :
    m'.HoldsData v values value := by
  obtain ⟨r, d, rfl, ho, harrays⟩ := h
  have hobjects : m.dataObjects (.ref r) = r :: d.toList.filterMap Value.ref? := by
    simp only [dataObjects, ho]
  rw [hobjects] at hkeeps
  refine ⟨r, d, rfl, (hkeeps r (List.mem_cons_self ..)).trans ho, fun kind => ?_⟩
  rcases harrays kind with hnone | ⟨r', type, hne, hv, ho'⟩
  · exact .inl hnone
  · refine .inr ⟨r', type, hne, hv, (hkeeps r' (List.mem_cons_of_mem _ ?_)).trans ho'⟩
    refine List.mem_filterMap.mpr ⟨d.ofKind kind, List.mem_map_of_mem ?_, by rw [hv]; rfl⟩
    cases kind <;> decide

theorem Recorded.keeps {plan : MethodPlan} {p : SuspendPoint} {leases : List (Option Lease)}
    {lockState : Value} {value : SavedValue → Value} {r : Ref}
    (h : m.Recorded plan p leases lockState value r) (hkeeps : Keeps (m.frameObjects r) m m') :
    m'.Recorded plan p leases lockState value r ∧ Keeps lockState.ref?.toList m m' := by
  obtain ⟨locals, stack, ho, hlocals, hstack⟩ := h
  simp only [frameObjects, ho] at hkeeps
  refine ⟨⟨locals, stack, (hkeeps r (List.mem_cons_self ..)).trans ho,
    hlocals.keeps fun r' hr' => hkeeps r' ?_, hstack.keeps fun r' hr' => hkeeps r' ?_⟩,
    fun r' hr' => hkeeps r' ?_⟩
  all_goals simp [hr']

/-- Objects that hold saved values are there, and the continuation is none of them. -/
theorem HoldsData.mem_objects {v : Value} {values : List SavedValue} {value : SavedValue → Value}
    (h : m.HoldsData v values value) {r : Ref} (hr : r ∈ m.dataObjects v) :
    ∃ o, m.object? r = some o ∧ o.isContinuation = false := by
  obtain ⟨r', d, rfl, ho, harrays⟩ := h
  simp only [dataObjects, ho] at hr
  rcases List.mem_cons.mp hr with rfl | hr
  · exact ⟨_, ho, rfl⟩
  · obtain ⟨v, hv, hr⟩ := List.mem_filterMap.mp hr
    obtain ⟨kind, -, rfl⟩ := List.mem_map.mp hv
    rcases harrays kind with ⟨-, hnull⟩ | ⟨r', type, -, hv, ho'⟩
    · rw [hnull] at hr
      cases hr
    · rw [hv] at hr
      cases hr
      exact ⟨_, ho', rfl⟩

theorem Recorded.mem_objects {plan : MethodPlan} {p : SuspendPoint} {leases : List (Option Lease)}
    {lockState : Value} {value : SavedValue → Value} {state : Ref}
    (h : m.Recorded plan p leases lockState value state)
    (hlock : ∀ r, lockState = .ref r → ∃ o, m.object? r = some o ∧ o.isContinuation = false)
    {r : Ref} (hr : r ∈ m.frameObjects state) :
    ∃ o, m.object? r = some o ∧ o.isContinuation = false := by
  obtain ⟨locals, stack, ho, hlocals, hstack⟩ := h
  simp only [frameObjects, ho, List.mem_cons, List.mem_append] at hr
  rcases hr with rfl | (hr | hr) | hr
  · exact ⟨_, ho, rfl⟩
  · cases lockState with
    | ref lock =>
      cases List.mem_singleton.mp hr
      exact hlock r rfl
    | _ => cases hr
  · exact hlocals.mem_objects hr
  · exact hstack.mem_objects hr

end Machine

/-! ## Points of a generated method -/

theorem forall₂_getElem? {α β : Type} {R : α → β → Prop} {xs : List α} {ys : List β}
    (h : List.Forall₂ R xs ys) {i : Nat} {x : α} (hx : xs[i]? = some x) :
    ∃ y, ys[i]? = some y ∧ R x y := by
  induction h generalizing i with
  | nil => cases hx
  | @cons x' y _ _ hfirst _ ih =>
    cases i with
    | zero =>
      cases hx
      exact ⟨y, rfl, hfirst⟩
    | succ i => exact ih hx

namespace Generated

variable {settings : Settings} {h : Hierarchy} {owner : ClassName} {method : Method}
  {made : SuspendableMethod} (g : Generated settings h owner method made)

/-- The number of local slots of the body as written; generated code uses those that follow. -/
def size : Nat := g.plan.analysis.maxLocals

/-- A point and its code. -/
structure Located (p : SuspendPoint) where
  /-- the variables of generated code -/
  l : Layout
  /-- the code is laid out with them -/
  shape : g.parts.Shape l g.size
  /-- what is put for the point -/
  piece : Piece
  /-- how the method is called there -/
  kind : CallKind
  /-- which method is called -/
  ref : MethodRef
  /-- the code of the point -/
  q : PointCode l g.size l.shared p (.invoke kind ref) (shape.restores.getD p.id default) piece
  /-- for these settings -/
  settings_eq : l.settings = settings
  /-- and for this plan -/
  plan_eq : l.plan = g.plan
  /-- with variables for monitors if the body enters any -/
  monitors_eq : l.monitors.isSome = g.plan.code.hasMonitors
  /-- they are where they should be -/
  ready : l.Ready g.size
  /-- the piece stands in the place of the call -/
  piece_eq : g.parts.pieces[p.index]? = some piece
  /-- the call is in the body -/
  call_eq : g.plan.code.instructions[p.index]? = some (.invoke kind ref)
  /-- a call of `suspend`, or one that may suspend -/
  kind_eq : p.kind = if ref.isSuspend then .suspend else .invoke
  /-- its frame has a shape that is known -/
  frame : p.frame.WellFormed g.size
  /-- variables of the body can be addressed -/
  size_lt : g.size < 0x10000
  /-- the stack is not too deep -/
  words_lt : p.frame.words < 0x10000
  /-- it has a restore block -/
  id_lt : p.id < shape.restores.length
  /-- arguments and receiver are on the stack -/
  arguments : ref.descriptor.parameters.length + (if kind = .static then 0 else 1) ≤
    p.frame.stack.length
  /-- an operand is the receiver, unless the call is static -/
  receiver : p.kind = .suspend → kind ≠ .static → ∃ t rest, p.frame.stack = t :: rest ∧
    t.fits (.ofClass .object) = true

theorem located {p : SuspendPoint} (hp : p ∈ g.plan.points) : Nonempty (g.Located p) := by
  obtain ⟨-, -, -, hanalysis, hpoints⟩ := planMethod_inv g.plan_eq
  rw [hpoints] at hp
  obtain ⟨ref, kind, -, hcall, hframe, hkind, hget⟩ := mem_suspendPoints hp
  obtain ⟨l, hsettings, hplan, hmonitors, hready, ⟨shape⟩⟩ := expansion_shape g.parts_eq
  -- the piece of the call
  have hcall' : l.plan.code.instructions.toList.zipIdx[p.index]? =
      some (.invoke kind ref, p.index) := by
    rw [hplan, List.getElem?_zipIdx, Array.getElem?_toList, hcall, Nat.zero_add]
    rfl
  obtain ⟨piece, hpiece, his⟩ := forall₂_getElem? shape.pieces hcall'
  obtain ⟨q⟩ := his.point (by rw [hplan, hpoints, find?_point hp])
  have hid : p.id < shape.restores.length := by
    rw [shape.restores_length, hplan, hpoints]
    exact (List.getElem?_eq_some_iff.mp hget).1
  -- the effect of the call on its frame
  obtain ⟨i, after, hi, hstep⟩ := analyzeCode_steps hanalysis hframe
  obtain rfl : i = .invoke kind ref := Option.some.inj (hi.symm.trans hcall)
  have hinvoke : p.frame.invoke ⟨owner, method.descriptor.result⟩ kind ref = .ok after := hstep
  refine ⟨{ l, shape, piece, kind, ref, q, settings_eq := hsettings, plan_eq := hplan
            monitors_eq := hmonitors, ready := hready, piece_eq := hpiece, call_eq := hcall
            kind_eq := hkind, frame := analyzeCode_wellFormed hanalysis hframe
            size_lt := ?_, words_lt := analyzeCode_words hanalysis hframe, id_lt := hid
            arguments := Frame.invoke_arguments hinvoke, receiver := ?_ }⟩
  · obtain ⟨analyzed⟩ := analyzeCode_analyzed hanalysis
    exact analyzed.locals_lt
  · intro hsuspend hstatic
    rw [hkind] at hsuspend
    split at hsuspend
    · rename_i hcalled
      obtain rfl := of_decide_eq_true hcalled
      exact Frame.invoke_receiver hinvoke rfl (by decide) hstatic
    · cases hsuspend

/-! ## Suspending -/

/-- Is the activation at the point? Locals and stack conform to the frame of the point, and the slot
after the locals holds the continuation. -/
structure AtPoint (p : SuspendPoint) (a : Activation) (m : Machine) (cont : Ref) : Prop where
  /-- control is at the point -/
  index : a.index = g.parts.position p.index
  /-- variables and operands conform to the frame -/
  conforms : a.Conforms m p.frame
  /-- the continuation is in its variable -/
  continuation : a.valueAt g.size = .ref cont

/-- Are the monitors held that the activation has recorded, if it records them at all? -/
def Locked (a : Activation) (m : Machine) : Prop :=
  g.plan.code.hasMonitors = true → ∃ lock locks left, a.valueAt (g.size + 2) = .ref lock ∧
    m.object? lock = some (.lockState locks) ∧ locks.monitors.length < 2 ^ 31 ∧
    m.monitors.leave? locks.monitors.reverse = some left

/-- How a method comes to save its state, with the machine and the continuation at that time. -/
inductive Suspends (limit depth : Nat) (p : SuspendPoint) (a : Activation) (m : Machine) (cont : Ref) :
    Machine → Continuation Ref → Prop
  /-- it calls `suspend` on a receiver -/
  | suspend {kind : CallKind} {ref : MethodRef} {c : Continuation Ref} (hkind : p.kind = .suspend)
      (hcall : g.plan.code.instructions[p.index]? = some (.invoke kind ref))
      (hreceiver : kind ≠ .static) (hc : m.object? cont = some (.continuation c)) :
      Suspends limit depth p a m cont m { c with mode := .saving }
  /-- a method that it calls returns while saving -/
  | invoke {kind : CallKind} {ref : MethodRef} {count : Nat} {result : Option Value} {m' : Machine}
      {c : Continuation Ref} (hkind : p.kind = .invoke)
      (hcall : g.plan.code.instructions[p.index]? = some (.invoke kind ref))
      (hcount : count = ref.descriptor.parameters.length + if kind = .static then 0 else 1)
      (hrun : Run.call (runMethod limit depth) kind ref (a.stack.take count).reverse m = .ok result m')
      (hresult : result.map Value.width = ref.descriptor.result.map FieldType.width)
      (hc : m'.object? cont = some (.continuation c)) (hmode : c.mode = .saving) :
      Suspends limit depth p a m cont m' c

/-! ## Resuming -/

/-- Where execution goes on: at the label right before the code of the next instruction, or at the
call itself. -/
def ResumesAt (p : SuspendPoint) (index : Nat) : Prop :=
  match p.kind with
  | .suspend => index + 1 = g.parts.position (p.index + 1) ∧
      ∃ l, g.body.instructions[index]? = some (.label l)
  | .invoke => index = g.parts.position p.index + p.frame.stack.length + 1 + p.frame.stack.length ∧
      g.body.instructions[index]? = g.plan.code.instructions[p.index]?

end Generated

/-- How a method is called again: on any later machine in which the saved objects are what they
were, with the saved state next to load, and with any arguments that conform to its descriptor, the
same continuation among them. -/
structure Method.CalledAgain (method : Method) (owner : ClassName) (m₁ : Machine)
    (state cont : Ref) (m₂ : Machine) (c : Continuation Ref) (arguments : List Value) : Prop where
  /-- the machine has gone on -/
  later : m₁.Precedes m₂
  /-- and has kept what the state refers to -/
  kept : Machine.Keeps (m₁.frameObjects state) m₁ m₂
  /-- the handle refers to a continuation -/
  continuation : m₂.object? cont = some (.continuation c)
  /-- states are being loaded -/
  loading : c.mode = .loading
  /-- the state is the next one -/
  next : c.saved[c.nextLoad]? = some state
  /-- arguments conform to the descriptor -/
  conform : List.Forall₂ (fun t v => v.Conforms m₂ (.ofField t)) (method.argumentTypes owner)
    arguments
  /-- the continuation is among them -/
  same : arguments[method.continuationArgument]? = some (.ref cont)

/-- Arguments for a method, with a continuation where it looks for it. -/
structure Method.Called (method : Method) (owner : ClassName) (cont : Ref)
    (arguments : List Value) : Prop where
  /-- arguments are as wide as the descriptor says -/
  widths : List.Forall₂ (fun t v => Value.width v = FieldType.width t) (method.argumentTypes owner)
    arguments
  /-- the continuation is among them -/
  same : arguments[method.continuationArgument]? = some (.ref cont)

theorem Method.CalledAgain.called {method : Method} {owner : ClassName} {m₁ m₂ : Machine}
    {state cont : Ref} {c : Continuation Ref} {arguments : List Value}
    (h : method.CalledAgain owner m₁ state cont m₂ c arguments) :
    method.Called owner cont arguments where
  widths := h.conform.imp fun t v hv => by
    have hfield : SlotType.ofField t ≠ .top ∧ (SlotType.ofField t).width = t.width := by
      cases t with
      | base kind => cases kind <;> exact ⟨nofun, rfl⟩
      | ref type => exact ⟨nofun, rfl⟩
    rw [hv.width_eq hfield.1, hfield.2]
  same := h.same

namespace SuspendPoint

/-- The stack when execution goes on: the receiver of `suspend` is gone, but a call is made again. -/
def resumedStack (p : SuspendPoint) (stack : List Value) : List Value :=
  match p.kind with
  | .suspend => stack.tail
  | .invoke => stack

/-- The mode when execution goes on: the methods that a call leads to are still to be loaded. -/
def resumedMode (p : SuspendPoint) : Mode :=
  match p.kind with
  | .suspend => .normal
  | .invoke => .loading

end SuspendPoint

namespace Generated

variable {settings : Settings} {h : Hierarchy} {owner : ClassName} {method : Method}
  {made : SuspendableMethod} (g : Generated settings h owner method made)

theorem body_has : g.body.instructions.toList = g.parts.instructions := by
  obtain ⟨hinstructions, -⟩ := Body.ofCode_inv g.body_eq
  rw [hinstructions, g.instructions_eq]

variable {g} {p : SuspendPoint} {a : Activation} {m : Machine} {cont : Ref}

/-- The lock state of an activation, as the code of a point sees it. -/
theorem Locked.locks (hlocked : g.Locked a m) (at_ : g.Located p) :
    ∃ lockState left, at_.l.Locks a m lockState left := by
  simp only [Layout.Locks]
  cases hmonitors : at_.l.monitors with
  | none => exact ⟨.null, m.monitors, rfl, rfl⟩
  | some v =>
    have hhas : g.plan.code.hasMonitors = true := by
      rw [← at_.monitors_eq, hmonitors]
      rfl
    obtain ⟨lock, locks, left, hlock, hrest⟩ := hlocked hhas
    rw [← at_.ready.lockState_slot v hmonitors] at hlock
    exact ⟨.ref lock, left, at_.ready.distinct hmonitors, lock, locks, rfl, hlock, hrest⟩

theorem relocks_of_locks {l : Layout} {lockState : Value} {left : Monitors}
    (h : l.Locks a m lockState left) : Body.Relocks l m lockState := by
  simp only [Layout.Locks, Body.Relocks] at h ⊢
  cases hmonitors : l.monitors with
  | some v =>
    simp only [hmonitors] at h ⊢
    obtain ⟨-, lock, locks, hlock, -, ho, hsize, -⟩ := h
    exact ⟨lock, locks, hlock, ho, hsize⟩
  | none =>
    simp only [hmonitors] at h ⊢
    exact h.1

/-- What is saved of an activation at a point. -/
structure Saved (at_ : g.Located p) (a : Activation) (m : Machine) (state : Ref) where
  /-- the activation with its stack spilled -/
  o : Activation
  /-- the operands that are saved -/
  values : List Value
  /-- the record of monitors -/
  lockState : Value
  /-- the operands that are left at the point -/
  stack : values.reverse = p.resumedStack a.stack
  /-- everything is where it is saved from -/
  savable : Savable g.size p at_.q.leases m o values
  /-- variables of the body are as they were -/
  locals : Body.HoldsLocals p a o
  /-- the state holds all of it -/
  recorded : m.Recorded at_.l.plan p at_.q.leases lockState (fun x => o.valueAt x.slot) state
  /-- the monitors can be entered again -/
  relocks : Body.Relocks at_.l m lockState

/-- The values of the stack that are saved, bottom first. -/
theorem AtPoint.savable (hpoint : g.AtPoint p a m cont) (at_ : g.Located p) :
    Savable g.size p at_.q.leases m
        (Body.spilled a at_.q.leases (p.resumedStack a.stack).reverse)
        (p.resumedStack a.stack).reverse ∧
      Body.HoldsLocals p a (Body.spilled a at_.q.leases (p.resumedStack a.stack).reverse) := by
  refine Body.savable_spilled at_.frame at_.q.leased at_.q.separate hpoint.conforms.locals ?_
  rw [SuspendPoint.stackToSave, SuspendPoint.resumedStack]
  cases p.kind with
  | invoke => exact List.rel_reverse hpoint.conforms.stack
  | suspend =>
    refine List.rel_reverse ?_
    rw [← List.drop_one, ← List.drop_one]
    exact List.forall₂_drop 1 hpoint.conforms.stack

theorem Located.call_unique (at_ : g.Located p) {kind : CallKind} {ref : MethodRef}
    (hcall : g.plan.code.instructions[p.index]? = some (.invoke kind ref)) :
    kind = at_.kind ∧ ref = at_.ref := by
  cases hcall.symm.trans at_.call_eq
  exact ⟨rfl, rfl⟩

theorem Located.serves (at_ : g.Located p) (hserves : m.Serves settings) :
    m.Serves at_.l.settings := by
  rw [at_.settings_eq]
  exact hserves

/-- The receiver of `suspend` is on top of the stack. -/
theorem AtPoint.receiver (hpoint : g.AtPoint p a m cont) (at_ : g.Located p)
    (hkind : p.kind = .suspend) (hreceiver : at_.kind ≠ .static) :
    ∃ receiver, receiver.width = 1 ∧ a.stack = receiver :: a.stack.tail := by
  obtain ⟨t, rest, hframe, hfits⟩ := at_.receiver hkind hreceiver
  have hconforms := hpoint.conforms.stack
  rw [hframe] at hconforms
  obtain ⟨receiver, stack, hv, -, hstack⟩ := List.forall₂_cons_left_iff.mp hconforms
  refine ⟨receiver, ?_, by rw [hstack]; rfl⟩
  have ht : t ≠ .top ∧ t.width = 1 := by
    cases t with
    | null | object => exact ⟨nofun, rfl⟩
    | _ => cases hfits
  rw [hv.width_eq ht.1, ht.2]

/-- A call leads to a later machine that still serves generated code. -/
theorem AtPoint.called (hpoint : g.AtPoint p a m cont) (at_ : g.Located p)
    (hserves : m.Serves settings) (hsound : m.Sound .none) {limit depth count : Nat} {kind : CallKind}
    {ref : MethodRef} {result : Option Value} {m' : Machine}
    (hcall : Run.call (runMethod limit depth) kind ref (a.stack.take count).reverse m = .ok result m') :
    m.Precedes m' ∧ m'.Serves settings := by
  have hargs : Run.NoTop (a.stack.take count).reverse := by
    intro v hv
    obtain ⟨t, ht, hconforms⟩ : ∃ t ∈ p.frame.stack, v.Conforms m t := by
      have hmem := List.mem_of_mem_take (List.mem_reverse.mp hv)
      obtain ⟨i, hi⟩ := List.mem_iff_getElem?.mp hmem
      obtain ⟨t, ht, hR⟩ := forall₂_getElem? hpoint.conforms.stack.flip hi
      exact ⟨t, List.mem_of_getElem? ht, hR⟩
    exact hconforms.ne_top (at_.frame.stack t ht)
  have hleads := Run.call_leads (P := True) (m := m) (Body.plain_runMethod limit depth _) rfl kind ref
    (fun _ => hargs) fun _ _ _ _ _ _ _ _ _ _ _ _ => trivial
  rw [Run.Leads, hcall] at hleads
  obtain ⟨⟨hlater, -⟩, hsound'⟩ := hleads
  obtain ⟨hsound', -⟩ := hsound' trivial hsound
  exact ⟨hlater, hserves.later hlater fun s r hs => (hsound'.interned r s).mpr hs⟩

/-- **Saving.** The method returns, and its state was handed over to the continuation. -/
theorem saves (at_ : g.Located p) {limit depth : Nat} {m' : Machine} {c : Continuation Ref}
    (hpoint : g.AtPoint p a m cont) (hserves : m.Serves settings) (hsound : m.Sound .none)
    (hsuspends : g.Suspends limit depth p a m cont m' c) (hlocked : g.Locked a m') :
    ∃ m₁ state, Body.Returns (Run.callees (runMethod limit depth)) g.body a m
        (method.descriptor.result.map Value.zero) m₁ ∧
      m₁.object? cont = some (.continuation (c.push state)) ∧ m₁.Serves settings ∧
      Nonempty (Saved at_ a m₁ state) := by
  have hat := Expansion.has_inPlace g.body_has at_.piece_eq
  rw [← hpoint.index] at hat
  have hsequence := at_.q.inPlace_eq
  have hcont : a.valueAt at_.l.continuation.slot = .ref cont := by
    rw [at_.ready.continuation_slot]
    exact hpoint.continuation
  obtain ⟨lockState, left, hlocks⟩ := hlocked.locks at_
  obtain ⟨hsavable, hlocals⟩ := hpoint.savable at_
  have hrun := Body.plain_runMethod limit depth
  have hresult : at_.l.plan.method.descriptor.result = method.descriptor.result := by
    rw [at_.plan_eq, (planMethod_inv g.plan_eq).2.1]
  -- the state that was handed over, whatever led to it
  have hsaved : ∀ {m'' : Machine} {state : Ref}, m.Precedes m' → m'.Adds [cont] m'' →
      (∃ c₀, m'.object? cont = some (.continuation c₀)) →
      m''.Recorded at_.l.plan p at_.q.leases lockState (fun x =>
        (Body.spilled a at_.q.leases (p.resumedStack a.stack).reverse).valueAt x.slot) state →
      Nonempty (Saved at_ a { m'' with monitors := left } state) := by
    intro m'' state hlater hadds ⟨c₀, hc₀⟩ hrecorded
    have haside : m''.Precedes { m'' with monitors := left } :=
      .of_heap_eq rfl rfl rfl rfl (fun _ h => h) rfl rfl
    exact ⟨{ o := _, values := _, lockState, stack := List.reverse_reverse _
             savable := (hsavable.later (hlater.trans hadds.later)).later haside
             locals := hlocals, recorded := hrecorded
             relocks := ((relocks_of_locks hlocks).sameBut hc₀ hadds.sameBut).1 }⟩
  cases hsuspends with
  | @suspend kind ref c hkind hcall hreceiver hc =>
    obtain ⟨rfl, rfl⟩ := at_.call_unique hcall
    rw [IsSequence, hkind] at hsequence
    rw [hsequence] at hat
    obtain ⟨receiver, hnarrow, hstack⟩ := hpoint.receiver at_ hkind hreceiver
    obtain ⟨m₁, state, hreturns, hadds, hc₁, hrecorded⟩ := Body.returns_suspend hrun g.body_eq at_.q
      hat at_.ready at_.size_lt at_.words_lt (at_.serves hserves) hcont hc hlocks hnarrow
      (by rw [List.reverse_reverse, SuspendPoint.resumedStack, hkind]; exact hstack) hsavable
    rw [hresult] at hreturns
    exact ⟨_, state, hreturns, hc₁, (hserves.adds hadds).withMonitors left,
      hsaved (.refl m) hadds ⟨c, hc⟩ hrecorded⟩
  | @invoke kind ref count result m' c hkind hcall hcount hcalled hwidth hc hmode =>
    obtain ⟨rfl, rfl⟩ := at_.call_unique hcall
    rw [IsSequence, hkind] at hsequence
    obtain ⟨after, hsequence⟩ := hsequence
    rw [hsequence] at hat
    obtain ⟨hlater, hserves'⟩ := hpoint.called at_ hserves hsound hcalled
    have hstack : p.resumedStack a.stack = a.stack := by
      rw [SuspendPoint.resumedStack, hkind]
    have henough : count ≤ (p.resumedStack a.stack).reverse.length := by
      rw [List.length_reverse, hstack, ← hpoint.conforms.stack.length_eq, hcount]
      exact at_.arguments
    obtain ⟨m₁, state, hreturns, hadds, hc₁, hrecorded⟩ := Body.returns_invoke hrun g.body_eq at_.q
      hat at_.ready at_.size_lt at_.words_lt hcont (by rw [List.reverse_reverse, hstack]) hsavable
      hcount henough (by rw [List.reverse_reverse, hstack]; exact hcalled) hwidth hlater
      (at_.serves hserves') hc hmode hlocks
    rw [hresult] at hreturns
    exact ⟨_, state, hreturns, hc₁, (hserves'.adds hadds).withMonitors left,
      hsaved hlater hadds ⟨c, hc⟩ hrecorded⟩

/-- A lock state that is what it was. -/
theorem Relocks.keeps {l : Layout} {m' : Machine} {lockState : Value}
    (h : Body.Relocks l m lockState) (hkeeps : Machine.Keeps lockState.ref?.toList m m') :
    Body.Relocks l m' lockState := by
  simp only [Body.Relocks] at h ⊢
  cases hmonitors : l.monitors with
  | some v =>
    simp only [hmonitors] at h ⊢
    obtain ⟨lock, locks, rfl, ho, hsize⟩ := h
    exact ⟨lock, locks, rfl, (hkeeps lock (List.mem_cons_self ..)).trans ho, hsize⟩
  | none =>
    simp only [hmonitors] at h ⊢
    exact h

/-- What was saved is there, and the continuation is no part of it. -/
theorem Saved.mem_objects {at_ : g.Located p} {state : Ref} (hsaved : Saved at_ a m state) {r : Ref}
    (hr : r ∈ m.frameObjects state) : ∃ o, m.object? r = some o ∧ o.isContinuation = false := by
  refine hsaved.recorded.mem_objects (fun lock hlock => ?_) hr
  have hrelocks := hsaved.relocks
  simp only [Body.Relocks, hlock] at hrelocks
  split at hrelocks
  · obtain ⟨lock', locks, hlock', ho, -⟩ := hrelocks
    cases hlock'
    exact ⟨_, ho, rfl⟩
  · cases hrelocks

theorem Saved.not_mem {at_ : g.Located p} {state : Ref} (hsaved : Saved at_ a m state)
    {c : Continuation Ref} (hc : m.object? cont = some (.continuation c)) :
    cont ∉ m.frameObjects state := by
  intro hmem
  obtain ⟨o, ho, hother⟩ := hsaved.mem_objects hmem
  rw [hc] at ho
  cases ho
  cases hother

theorem Saved.keeps {at_ : g.Located p} {m' : Machine} {state : Ref} (hsaved : Saved at_ a m state)
    {c : Continuation Ref} (hc : m.object? cont = some (.continuation c))
    (hsame : m.SameBut cont m') : Machine.Keeps (m.frameObjects state) m m' := by
  intro r hr
  obtain ⟨o, ho, hother⟩ := hsaved.mem_objects hr
  rw [ho]
  exact hsame.other hc ho hother

/-- The restore block of a point is where the jump table says. -/
theorem Located.find_block (at_ : g.Located p) :
    g.body.positions.find (at_.shape.restores.getD p.id at_.shape.invalid) =
      .ok (g.parts.blockPosition p.index) := by
  have hat := Expansion.has_block g.body_has at_.piece_eq
  rw [at_.q.block_eq, Layout.restoreBlock] at hat
  simp only [List.append_assoc, List.singleton_append] at hat
  have hlabel : at_.shape.restores.getD p.id at_.shape.invalid =
      at_.shape.restores.getD p.id default := by
    simp only [List.getD_eq_getElem?_getD, List.getElem?_eq_getElem at_.id_lt, Option.getD_some]
  rw [hlabel]
  exact Body.find_label g.body_eq hat

/-- The continuation is where the entry looks for it. -/
theorem called_continuation {arguments : List Value} (hcalled : method.Called owner cont arguments)
    (name : String) :
    Activation.valueAt
      { method := name, locals := argumentLocals arguments, stack := [], index := 0 }
      g.plan.continuationSlot = .ref cont :=
  argumentLocals_continuation g.slot_eq hcalled.widths hcalled.same

/-- **Resuming.** Called again, the method goes on at the point. -/
theorem resumes (at_ : g.Located p) {limit depth : Nat} {name : String} {m₁ m₂ : Machine} {state : Ref}
    {c : Continuation Ref} {arguments : List Value} (hsaved : Saved at_ a m₁ state)
    (hid : p.id < 2 ^ 31) (hserves : m₂.Serves settings) (hlater : m₁.Precedes m₂)
    (hkept : Machine.Keeps (m₁.frameObjects state) m₁ m₂)
    (hc : m₂.object? cont = some (.continuation c)) (hloading : c.mode = .loading)
    (hnext : c.saved[c.nextLoad]? = some state) (hcalled : method.Called owner cont arguments) :
    ∃ b m₃, Body.Reaches (Run.callees (runMethod limit depth)) g.body
        { method := name, locals := argumentLocals arguments, stack := [], index := 0 } m₂ b m₃ ∧
      g.ResumesAt p b.index ∧ b.stack = p.resumedStack a.stack ∧ Body.HoldsLocals p a b ∧
      m₃.object? cont = some (.continuation { c with
        mode := p.resumedMode, nextUnload := some c.nextLoad, nextLoad := c.nextLoad + 1 }) ∧
      m₂.Loads cont m₃ ∧ b.valueAt g.size = .ref cont := by
  have hrun := Body.plain_runMethod limit depth
  obtain ⟨hrecorded, hkeeps⟩ := hsaved.recorded.keeps hkept
  have hrelocks := Relocks.keeps hsaved.relocks hkeeps
  have hsavable := hsaved.savable.later hlater
  obtain ⟨locals, stack, ho, -⟩ := id hrecorded
  have hentry := Expansion.has_entry g.body_has
  rw [at_.shape.entry_eq] at hentry
  have hcont : Activation.valueAt
      { method := name, locals := argumentLocals arguments, stack := [], index := 0 }
      at_.l.plan.continuationSlot = .ref cont := by
    rw [at_.plan_eq]
    exact called_continuation hcalled name
  -- the entry takes the state, enters its monitors and goes to the restore block of the point
  obtain ⟨b, m', hentered, hadds, hc', hstate, hcont'⟩ := Body.reaches_entry hrun g.body_eq hentry
    at_.shape.enters_loop at_.ready (at_.serves hserves) hcont
    hc hloading hnext ho rfl rfl hrelocks.hasLocks.1
    ((Step.tableTarget_ofNat hid).symm ▸ at_.find_block)
  rw [hrelocks.hasLocks.2] at hentered
  have hserves' := (at_.serves hserves).adds hadds |>.withMonitors
    (m₂.monitors.enterAll (m₂.recorded hsaved.lockState))
  have hlater' : m₂.Precedes { m' with
      monitors := m₂.monitors.enterAll (m₂.recorded hsaved.lockState) } :=
    hadds.later.trans (.of_heap_eq rfl rfl rfl rfl (fun _ h => h) rfl rfl)
  have hrecorded' := hrecorded.sameBut hc hadds.sameBut
  have hloads : m₂.Loads cont (m'.holding (m₂.monitors.enterAll (m₂.recorded hsaved.lockState))) :=
    (Machine.Loads.of_adds hadds).holding _
  have hslot : ∀ b' : Activation, b'.valueAt at_.l.continuation.slot = .ref cont →
      b'.valueAt g.size = .ref cont := fun b' hb' => by
    rw [at_.ready.continuation_slot] at hb'
    exact hb'
  -- from there the block goes to a label inside of what replaces the point
  have hat := Expansion.has_inPlace g.body_has at_.piece_eq
  have hblock := Expansion.has_block g.body_has at_.piece_eq
  have hsequence := at_.q.inPlace_eq
  rw [← hsaved.stack]
  cases hkind : p.kind with
  | suspend =>
    simp only [IsSequence, hkind] at hsequence
    rw [hsequence, Layout.suspendSequence] at hat
    obtain ⟨-, hlabel⟩ := Body.Has.append_iff.mp hat
    obtain ⟨b', m₃, hresumed, hadds₃, hc₃, hcont₃, hholds⟩ :=
      Body.reaches_resumed hrun at_.q hkind hblock
      (Body.find_label g.body_eq hlabel) at_.ready at_.size_lt at_.words_lt hserves' hstate hcont' hc'
      (hsavable.later hlater') hrecorded'
    refine ⟨_, m₃, hentered.trans hresumed, ?_, rfl, fun slot t hget ht => ?_, ?_,
      hloads.trans (.of_adds hadds₃), hslot b' hcont₃⟩
    · rw [ResumesAt, hkind]
      refine ⟨?_, _, hlabel.getElem?⟩
      rw [Expansion.position_succ at_.piece_eq, hsequence, Layout.suspendSequence]
      simp only [Activation.placed_index, List.length_append, List.length_singleton, Nat.add_assoc]
    · exact (hholds slot t hget ht).trans (hsaved.locals slot t hget ht)
    · rw [hc₃, SuspendPoint.resumedMode, hkind]
  | invoke =>
    simp only [IsSequence, hkind] at hsequence
    obtain ⟨after, hsequence⟩ := hsequence
    rw [hsequence, Layout.invokeSequence] at hat
    simp only [List.append_assoc, List.singleton_append] at hat
    obtain ⟨-, hlabel⟩ := Body.Has.append_iff.mp hat
    obtain ⟨hreload, hcall⟩ := Body.Has.append_iff.mp hlabel
    obtain ⟨b', m₃, hresumed, hadds₃, hcont₃, hholds⟩ :=
      Body.reaches_recalled hrun at_.q hkind hblock
      (Body.find_label g.body_eq hlabel) hreload at_.ready at_.size_lt at_.words_lt hserves' hstate
      hcont' (hsavable.later hlater') hrecorded'
    have hlength : at_.q.leases.length = p.frame.stack.length := by
      rw [← at_.q.leased.length_eq, SuspendPoint.stackToSave, hkind, List.length_reverse]
    refine ⟨_, m₃, hentered.trans hresumed, ?_, rfl, fun slot t hget ht => ?_, ?_,
      hloads.trans (.of_adds hadds₃.anything), hslot b' hcont₃⟩
    · rw [ResumesAt, hkind]
      have hspill : (spillStack at_.q.leases).length = at_.q.leases.length := by
        rw [spillStack, List.length_map, List.length_reverse]
      rw [at_.call_eq, ← hlength]
      refine ⟨by rw [← hspill]; rfl, ?_⟩
      rw [List.length_cons, reloadStack, List.length_map, hspill] at hcall
      rw [← hcall.getElem?]
      congr 1
      simp only [Activation.placed_index, hspill]
      omega
    · exact (hholds slot t hget ht).trans (hsaved.locals slot t hget ht)
    · rw [hadds₃.same hc', SuspendPoint.resumedMode, hkind, ← hloading]

end Generated

/-! ## The round trip -/

/-- **Restore undoes save**, at every point of every suspendable method. An activation is at the
point and conforms to its frame; it is suspended there, by `suspend` or by a call that returns while
saving. Then it returns, its state is handed over, and called again with that state next it gets to
where it was: every usable local has its value, the stack is what it was, and the continuation is
back in normal mode, or still loading if a call is made again. -/
theorem restore_undoes_save {settings : Settings} {h : Hierarchy} {owner : ClassName}
    {method : Method} {made : SuspendableMethod}
    (hmade : makeSuspendable settings h owner method = .ok (some made)) :
    Nonempty (Generated settings h owner method made) ∧
    ∀ g : Generated settings h owner method made, g.plan.points.length ≤ 2 ^ 31 →
    ∀ p ∈ g.plan.points, ∀ {limit depth a m cont m' c}, g.AtPoint p a m cont → m.Serves settings →
      m.Sound .none → g.Suspends limit depth p a m cont m' c → g.Locked a m' →
    ∃ m₁ state,
      Body.Returns (Run.callees (runMethod limit depth)) g.body a m
        (method.descriptor.result.map Value.zero) m₁ ∧
      m₁.object? cont = some (.continuation (c.push state)) ∧ m₁.Serves settings ∧
      cont ∉ m₁.frameObjects state ∧
      ∀ {limit depth name m₂ c₂ arguments}, m₂.Serves settings →
        method.CalledAgain owner m₁ state cont m₂ c₂ arguments →
        ∃ b m₃, Body.Reaches (Run.callees (runMethod limit depth)) g.body
            { method := name, locals := argumentLocals arguments, stack := [], index := 0 } m₂ b m₃ ∧
          g.ResumesAt p b.index ∧ b.stack = p.resumedStack a.stack ∧
          (∀ slot t, p.frame.locals[slot]? = some t → t ≠ .top →
            b.valueAt slot = a.valueAt slot) ∧
          m₃.object? cont = some (.continuation { c₂ with
            mode := p.resumedMode, nextUnload := some c₂.nextLoad, nextLoad := c₂.nextLoad + 1 }) := by
  refine ⟨makeSuspendable_generated hmade, ?_⟩
  intro g hfew p hp limit depth a m cont m' c hpoint hserves hsound hsuspends hlocked
  obtain ⟨at_⟩ := g.located hp
  obtain ⟨m₁, state, hreturns, hc, hserves₁, ⟨hsaved⟩⟩ := Generated.saves at_ hpoint hserves hsound
    hsuspends hlocked
  have hid : p.id < 2 ^ 31 := by
    have := at_.id_lt
    rw [at_.shape.restores_length, at_.plan_eq] at this
    omega
  refine ⟨m₁, state, hreturns, hc, hserves₁, hsaved.not_mem hc, fun hserves₂ hagain => ?_⟩
  obtain ⟨b, m₃, hreaches, hindex, hstack, hlocals, hc₃, -⟩ :=
    Generated.resumes at_ hsaved hid hserves₂ hagain.later hagain.kept hagain.continuation
      hagain.loading hagain.next hagain.called
  exact ⟨b, m₃, hreaches, hindex, hstack, hlocals, hc₃⟩

namespace Sample

/-- The class of the samples. -/
def owner : ClassName := { text := "Sample" }

/-- Suspends once, and returns. -/
def code : Code where
  maxLocals := 3
  maxStack := 1
  instructions := #[.load .object 0, .invoke .virtual Interface.Continuation.suspend, .returnVoid]
  handlers := []
  stackMap := none
  nextLabel := ⟨0⟩

/-- A method that suspends once, with a number to remember. -/
def wait : Method where
  name := .run
  descriptor := ⟨[.object .continuation, .base .long], none⟩
  flags := staticFlag
  annotations := []
  code := some code

/-- A machine with one continuation. -/
def machine : Machine := (Machine.new.alloc (.continuation .empty)).2

theorem wait_suspendable : ∃ made,
    makeSuspendable .standard Library.hierarchy owner wait = .ok (some made) := by
  have h : (makeSuspendable .standard Library.hierarchy owner wait).toOption.join.isSome = true := by
    unfold makeSuspendable MethodPlan.generate
    simp only [withMetadata_search]
    decide +kernel
  obtain ⟨made, hmade⟩ := Option.isSome_iff_exists.mp h
  exact ⟨made, ok_of_join hmade⟩

/-- What is planned for the method. -/
theorem wait_plan {plan : MethodPlan}
    (h : planMethod Settings.standard.policy Library.hierarchy owner wait code 0 = .ok plan) :
    plan.points.map (fun p => (p.index, p.kind, p.frame)) =
        [(1, .suspend, ⟨[.ofClass .continuation, .long, .top], [.ofClass .continuation]⟩)] ∧
      plan.analysis.maxLocals = 3 ∧ plan.code.hasMonitors = false ∧
      plan.code.instructions[1]? = some (.invoke .virtual Interface.Continuation.suspend) := by
  have hplan : ((planMethod Settings.standard.policy Library.hierarchy owner wait code 0).toOption.all
      fun plan => plan.points.map (fun p => (p.index, p.kind, p.frame)) =
        [(1, .suspend, ⟨[.ofClass .continuation, .long, .top], [.ofClass .continuation]⟩)] ∧
      plan.analysis.maxLocals = 3 ∧ plan.code.hasMonitors = false ∧
      plan.code.instructions[1]? = some (.invoke .virtual Interface.Continuation.suspend)) = true := by
    decide +kernel
  rw [h] at hplan
  exact of_decide_eq_true hplan

end Sample

/-- A number that is seven before the suspension is seven after it, whatever the method is called
again with. -/
theorem restore_undoes_save_sample :
    ∃ made, makeSuspendable .standard Library.hierarchy Sample.owner Sample.wait = .ok (some made) ∧
    ∃ (g : Generated .standard Library.hierarchy Sample.owner Sample.wait made) (a b : Activation)
      (m₁ m₂ m₃ : Machine), a.valueAt 1 = .long 7 ∧
      Body.Returns (Run.callees (runMethod 99 0)) g.body a Sample.machine none m₁ ∧
      Body.Reaches (Run.callees (runMethod 99 0)) g.body
        { method := "run", locals := argumentLocals [.ref ⟨1⟩, .long 0], stack := [], index := 0 }
        m₂ b m₃ ∧
      b.valueAt 1 = .long 7 ∧ b.stack = [] := by
  obtain ⟨made, hmade⟩ := Sample.wait_suspendable
  obtain ⟨⟨g⟩, hall⟩ := restore_undoes_save hmade
  have hwritten : g.written = Sample.code := Option.some.inj g.written_eq.symm
  have hslot : g.plan.continuationSlot = 0 := Option.some.inj (g.slot_eq.symm.trans (by decide))
  have hplan := g.plan_eq
  rw [hwritten, hslot] at hplan
  obtain ⟨hpoints, hsize, hmonitors, hcall⟩ := Sample.wait_plan hplan
  obtain ⟨p, hp, hpoint⟩ := List.map_eq_singleton_iff.mp hpoints
  injection hpoint with hindex hpoint
  injection hpoint with hkind hframe
  have hmem : p ∈ g.plan.points := by rw [hp]; exact List.mem_singleton_self p
  have hsound : Sample.machine.Sound .none :=
    (Machine.Sound.new .none).alloc ⟨nofun, nofun, nofun⟩ nofun nofun
  have hserves : Sample.machine.Serves .standard :=
    { standard := by decide, allocator := nofun, printing := nofun, literals := nofun }
  have hc : Sample.machine.object? ⟨1⟩ = some (.continuation .empty) := rfl
  have hinstance : ∀ {m : Machine} {c}, m.object? ⟨1⟩ = some (.continuation c) →
      Value.Conforms m (.ofClass .continuation) (.ref ⟨1⟩) := fun ho =>
    .inr ⟨⟨1⟩, rfl, by rw [Run.isInstance_eq ho]; rfl⟩
  generalize ha : ({ method := "run", locals := #[.ref ⟨1⟩, .long 7, .top, .ref ⟨1⟩]
                     stack := [.ref ⟨1⟩], index := g.parts.position p.index } : Activation) = a
  have hat : g.AtPoint p a Sample.machine ⟨1⟩ := by
    subst ha
    refine ⟨rfl, ⟨fun slot t ht => ?_, ?_⟩, ?_⟩
    · rw [hframe] at ht
      match slot, ht with
      | 0, ht => cases ht; exact hinstance hc
      | 1, ht => cases ht; exact ⟨7, rfl⟩
      | 2, ht => cases ht; trivial
    · rw [hframe]
      exact .cons (hinstance hc) .nil
    · rw [Generated.size, hsize]
      rfl
  obtain ⟨m₁, state, hreturns, hc₁, hserves₁, hnot, hagain⟩ := hall g (by rw [hp]; simp) p hmem
    hat hserves hsound (.suspend hkind (hindex ▸ hcall) (by decide) hc)
    (fun h => absurd (hmonitors.symm.trans h) nofun)
  generalize hc₂ : ({ Continuation.empty with mode := .loading, saved := [state] } : Continuation Ref)
    = c₂
  have hadds : m₁.Adds [⟨1⟩] (m₁.put ⟨1⟩ (.continuation c₂)) := .put m₁ hc₁ (.continuation _ _)
  have ho₂ : (m₁.put ⟨1⟩ (.continuation c₂)).object? ⟨1⟩ = some (.continuation c₂) :=
    Machine.object?_put_self hc₁
  obtain ⟨b, m₃, hreaches, -, hstack, hlocals, -⟩ := @hagain 99 0 "run" _ c₂
    [.ref ⟨1⟩, .long 0] (hserves₁.adds hadds)
    { later := hadds.later
      kept := fun r hr => Machine.object?_put_of_ne fun h => hnot (h ▸ hr)
      continuation := ho₂
      loading := hc₂ ▸ rfl
      next := hc₂ ▸ rfl
      conform := .cons (hinstance ho₂) (.cons ⟨0, rfl⟩ .nil)
      same := rfl }
  refine ⟨made, hmade, g, a, b, m₁, _, m₃, ha ▸ rfl, hreturns, hreaches, ?_, ?_⟩
  · rw [hlocals 1 .long (by rw [hframe]; rfl) nofun, ← ha]
    rfl
  · rw [hstack, SuspendPoint.resumedStack, hkind, ← ha]
    rfl

namespace Sample

/-- Suspends while a monitor is held. -/
def guarded : Code where
  maxLocals := 1
  maxStack := 1
  instructions := #[.load .object 0, .monitorEnter, .load .object 0,
    .invoke .virtual Interface.Continuation.suspend, .returnVoid]
  handlers := []
  stackMap := none
  nextLabel := ⟨0⟩

/-- A method that holds a monitor when it suspends. -/
def hold : Method := { wait with descriptor := ⟨[.object .continuation], none⟩, code := some guarded }

/-- A machine with a lock state that has recorded a monitor, which is not held any more. -/
def released : Machine := (machine.alloc (.lockState ⟨[⟨1⟩]⟩)).2

theorem released_sound : released.Sound .none := by
  have hmachine : machine.Sound .none :=
    (Machine.Sound.new .none).alloc
      ⟨fun v hv => absurd hv List.not_mem_nil, fun _ _ h => (by cases h), fun _ h => (by cases h)⟩
      (fun _ h => by cases h) (fun h => by cases h)
  exact hmachine.alloc
    ⟨fun v hv => absurd hv List.not_mem_nil, fun _ _ h => (by cases h), fun _ h => (by cases h)⟩
    (fun _ h => by cases h) (fun h => by cases h)

/-- The machine offers generated code what it calls. -/
theorem released_serves : released.Serves .standard where
  standard := by decide
  allocator _ h := by cases h
  printing h := by cases h
  literals _ _ h := by cases h

/-- The method right before it suspends. -/
def holding (index : Nat) : Activation where
  method := "run"
  locals := #[.ref ⟨1⟩, .ref ⟨1⟩, .top, .ref ⟨2⟩]
  stack := [.ref ⟨1⟩]
  index

theorem hold_suspendable : ∃ made,
    makeSuspendable .standard Library.hierarchy owner hold = .ok (some made) := by
  have h : (makeSuspendable .standard Library.hierarchy owner hold).toOption.join.isSome = true := by
    unfold makeSuspendable MethodPlan.generate
    simp only [withMetadata_search]
    decide +kernel
  obtain ⟨made, hmade⟩ := Option.isSome_iff_exists.mp h
  exact ⟨made, ok_of_join hmade⟩

/-- Does the generated code end with an exception, from the point on? -/
def fails (parts : Expansion) (body : Body) : Bool :=
  match body.runFor (Run.callees (runMethod 99 0)) 99 99 (holding (parts.position 3)) released with
  | .error (.exception _) _ => true
  | _ => false

/-- What is planned for the method, and what becomes of its code. -/
theorem hold_fails : (do
    let plan ← (planMethod Settings.standard.policy Library.hierarchy owner hold guarded 0).toOption
    let parts ← (expansion .standard plan).toOption
    let body ← (Body.ofCode { guarded with
      instructions := parts.instructions.toArray, handlers := parts.handlers }).toOption
    return (plan.points.map fun p => (p.index, p.kind, p.frame), plan.analysis.maxLocals,
      plan.code.instructions[3]?, fails parts body)) =
    some ([(3, .suspend, ⟨[.ofClass .continuation], [.ofClass .continuation]⟩)], 1,
      some (.invoke .virtual Interface.Continuation.suspend), true) := by
  decide +kernel

end Sample

/-- A monitor that the method entered, and that is not held any more when it suspends, makes the code
that saves its state fail: it does not return. -/
theorem restore_undoes_save_released :
    ∃ made, makeSuspendable .standard Library.hierarchy Sample.owner Sample.hold = .ok (some made) ∧
    ∃ (g : Generated .standard Library.hierarchy Sample.owner Sample.hold made) (p : SuspendPoint)
      (a : Activation) (c : Continuation Ref), p ∈ g.plan.points ∧ g.plan.points.length ≤ 2 ^ 31 ∧
      g.AtPoint p a Sample.released ⟨1⟩ ∧ Sample.released.Serves .standard ∧
      Sample.released.Sound .none ∧ g.Suspends 99 0 p a Sample.released ⟨1⟩ Sample.released c ∧
      ∀ v m₁, ¬ Body.Returns (Run.callees (runMethod 99 0)) g.body a Sample.released v m₁ := by
  obtain ⟨made, hmade⟩ := Sample.hold_suspendable
  obtain ⟨g⟩ := makeSuspendable_generated hmade
  have hwritten : g.written = Sample.guarded := Option.some.inj g.written_eq.symm
  have hslot : g.plan.continuationSlot = 0 := Option.some.inj (g.slot_eq.symm.trans (by decide))
  have hplan := g.plan_eq
  rw [hwritten, hslot] at hplan
  have hbody : Body.ofCode { Sample.guarded with
      instructions := g.parts.instructions.toArray, handlers := g.parts.handlers } = .ok g.body := by
    rw [← g.instructions_eq, ← g.handlers_eq, ← g.body_eq]
    rfl
  have hfails := Sample.hold_fails
  simp only [hplan, g.parts_eq, hbody, Except.toOption, Option.bind_eq_bind, Option.bind_some,
    Option.pure_def, Option.some.injEq, Prod.mk.injEq] at hfails
  obtain ⟨hpoints, hsize, hcall, hfails⟩ := hfails
  obtain ⟨p, hp, hpoint⟩ := List.map_eq_singleton_iff.mp hpoints
  injection hpoint with hindex hpoint
  injection hpoint with hkind hframe
  have hc : Sample.released.object? ⟨1⟩ = some (.continuation .empty) := rfl
  have hinstance : Value.Conforms Sample.released (.ofClass .continuation) (.ref ⟨1⟩) :=
    .inr ⟨⟨1⟩, rfl, by rw [Run.isInstance_eq hc]; rfl⟩
  refine ⟨made, hmade, g, p, Sample.holding (g.parts.position p.index), _, by rw [hp]; simp,
    by rw [hp]; simp, ⟨rfl, ⟨fun slot t ht => ?_, ?_⟩, ?_⟩,
    Sample.released_serves, Sample.released_sound, .suspend hkind (hindex ▸ hcall) (by decide) hc, fun v m₁ => ?_⟩
  · rw [hframe] at ht
    cases slot with
    | zero =>
      cases ht
      exact hinstance
    | succ slot => cases ht
  · rw [hframe]
    exact .cons hinstance .nil
  · rw [Generated.size, hsize]
    rfl
  · rw [Sample.fails] at hfails
    split at hfails
    · rename_i hrun
      exact Body.not_returns_of_exception (hindex ▸ hrun)
    · cases hfails

end Resumption
