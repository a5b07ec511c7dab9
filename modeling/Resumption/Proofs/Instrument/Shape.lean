import Resumption.Instrument.Emit
import Resumption.Proofs.Instrument.Leases

/-!
# The shape of suspendable code

Blocks are made in `Emit`, which hands out labels and variables. Here it is said once what comes out
(`expansion_shape`), so that everything else is about lists of instructions:

* **`Emit.Makes`** is what a computation in `Emit` makes, together with the leases in use after it.
* **`RestoresData`** is the code that copies saved values back, with the array variables it uses.
* **`PointCode`** is the code of a point: its save sequence, its restore block, and the variables
  that the stack is spilled into, apart from each other and from everything in use.
* **`Expansion.Shape`** is the code of a method.
-/

namespace Resumption

/-- Variables that are in use at the same time. -/
structure Separate (first : Nat) (held : List Lease) : Prop where
  /-- variables are apart from one another -/
  apart : held.Pairwise fun l l' => l.span.Apart l'.span
  /-- and from those of the body -/
  above : ∀ l ∈ held, first ≤ l.slot
  /-- they can be addressed -/
  room : ∀ l ∈ held, l.slot + l.kind.width < 0x10000

namespace Emit

variable {α β : Type} {first : Nat} {held : List Lease} {x : Emit α} {Q : α → List Lease → Prop}

/-- What a computation makes, and the leases that are in use after it. -/
def Makes (first : Nat) (held : List Lease) (x : Emit α) (Q : α → List Lease → Prop) : Prop :=
  ∀ s a s', x s = .ok (a, s') → s.scratch.Tracks first held →
    ∃ held', s'.scratch.Tracks first held' ∧ Q a held'

namespace Makes

/-- A value is made with what is held. -/
theorem pure {a : α} (h : Q a held) : Makes first held (Pure.pure a) Q := by
  intro s b s' hrun hs
  cases hrun
  exact ⟨held, hs, h⟩

/-- One computation after the other makes what the second makes. -/
theorem bind {f : α → Emit β} {R : β → List Lease → Prop} (hx : Makes first held x Q)
    (hf : ∀ a held', Q a held' → Makes first held' (f a) R) :
    Makes first held (x >>= f) R := by
  intro s b s'' hrun hs
  simp only [Bind.bind, StateT.bind, Except.bind] at hrun
  cases hx' : x s with
  | error e =>
    rw [hx'] at hrun
    cases hrun
  | ok p =>
    obtain ⟨a, s'⟩ := p
    rw [hx'] at hrun
    obtain ⟨held', hs', ha⟩ := hx s a s' hx' hs
    exact hf a held' ha s' b s'' hrun hs'

/-- A computation makes what follows from what it makes. -/
theorem mono {R : α → List Lease → Prop} (hx : Makes first held x Q)
    (himp : ∀ a held', Q a held' → R a held') : Makes first held x R := by
  intro s a s' hrun hs
  obtain ⟨held', hs', ha⟩ := hx s a s' hrun hs
  exact ⟨held', hs', himp a held' ha⟩

/-- The order of what is held does not matter. -/
theorem perm {held' : List Lease} (hx : Makes first held x Q) (hperm : held.Perm held') :
    Makes first held' x Q := fun s a s' hrun hs => hx s a s' hrun (hs.perm hperm)

/-- What is known of the leases in use. -/
theorem separate (h : Separate first held → Makes first held x Q) : Makes first held x Q :=
  fun s a s' hrun hs => h ⟨hs.held_apart, hs.held_first, hs.held_room⟩ s a s' hrun hs

/-- Drawing a label changes nothing of what is held. -/
theorem freshLabel : Makes first held freshLabel fun _ held' => held' = held := by
  intro s a s' hrun hs
  cases hrun
  exact ⟨held, hs, rfl⟩

/-- A leased variable is held from then on. -/
theorem acquire (kind : ValueKind) :
    Makes first held (acquire kind) fun l held' => held' = l :: held ∧ l.kind = kind := by
  intro s l s' hrun hs
  simp only [Emit.acquire] at hrun
  split at hrun
  · rename_i l' scratch hok
    cases hrun
    obtain ⟨hkind, htracks⟩ := hs.acquire hok
    exact ⟨l :: held, htracks, rfl, hkind⟩
  · cases hrun

/-- A variable given back is no longer held. -/
theorem release (l : Lease) :
    Makes first (l :: held) (release l) fun _ held' => held' = held := by
  intro s a s' hrun hs
  cases hrun
  exact ⟨held, hs.release, rfl⟩

/-- A computation for each item that gives back what it takes. -/
theorem mapM {f : α → Emit β} {R : α → β → Prop} (as : List α)
    (h : ∀ a ∈ as, Makes first held (f a) fun b held' => held' = held ∧ R a b) :
    Makes first held (as.mapM f) fun bs held' => held' = held ∧ List.Forall₂ R as bs := by
  induction as with
  | nil => exact .pure ⟨rfl, .nil⟩
  | cons a as ih =>
    rw [List.mapM_cons]
    refine .bind (h a (List.mem_cons_self ..)) ?_
    rintro b _ ⟨rfl, hb⟩
    refine .bind (ih fun a' ha' => h a' (List.mem_cons_of_mem _ ha')) ?_
    rintro bs _ ⟨rfl, hbs⟩
    exact .pure ⟨rfl, .cons hb hbs⟩

/-- Gives back leases. -/
theorem releaseAll (leases : List Lease) :
    Makes first (leases ++ held) (leases.forM Emit.release) fun _ held' => held' = held := by
  induction leases with
  | nil => exact .pure rfl
  | cons l leases ih =>
    rw [List.forM_eq_forM, List.forM_cons]
    refine .bind (release l) ?_
    rintro _ _ rfl
    exact ih

end Makes

end Emit

/-! ## Points -/

/-- A variable for a value of a type; null needs none. -/
def Leased (t : SlotType) (lease : Option Lease) : Prop :=
  lease.map (·.kind) = ValueKind.ofSlot? t

/-- The code that copies the saved values of one kind back: none if there are none, and otherwise
with a variable for the array that is apart from everything in use. -/
inductive RestoresKind (l : Layout) (first : Nat) (held : List Lease) (getter : MethodRef)
    (values : List SavedValue) (kind : ValueKind) : List Instruction → Prop
  /-- nothing of the kind is saved -/
  | nothing (hnone : values.filter (·.kind = kind) = []) :
      RestoresKind l first held getter values kind []
  /-- the array of the kind is in a variable of its own -/
  | elements (array : Lease) (hkind : array.kind = .object)
      (hseparate : Separate first (array :: held)) :
      RestoresKind l first held getter values kind
        (l.restoreFrom getter kind (values.filter (·.kind = kind)) array)

/-- The code that copies all saved values back, kind by kind. -/
def RestoresData (l : Layout) (first : Nat) (held : List Lease) (getter : MethodRef)
    (values : List SavedValue) (code : List Instruction) : Prop :=
  ∃ blocks, List.Forall₂ (RestoresKind l first held getter values) ValueKind.all blocks ∧
    code = blocks.flatten

/-- The loop over the monitors of the activation; none if the body has no monitors. -/
def IsMonitorLoop (l : Layout) (loop : MonitorVariables → Label → Label → List Instruction)
    (code : List Instruction) : Prop :=
  match l.monitors with
  | some m => ∃ start stop, code = loop m start stop
  | none => code = []

/-- What stands in place of the call of a point. -/
def IsSequence (l : Layout) (p : SuspendPoint) (i : Instruction) (leases : List (Option Lease))
    (resume : Label) (exits inPlace : List Instruction) : Prop :=
  match p.kind with
  | .suspend => inPlace = l.suspendSequence p leases resume exits
  | .invoke => ∃ after, inPlace = l.invokeSequence p i leases resume after exits

/-- The code of a point. -/
structure PointCode (l : Layout) (first : Nat) (base : List Lease) (p : SuspendPoint)
    (i : Instruction) (here : Label) (piece : Piece) where
  /-- what the stack is spilled into, bottom first -/
  leases : List (Option Lease)
  /-- where the body goes on -/
  resume : Label
  /-- leaves the monitors -/
  exits : List Instruction
  /-- copies the locals back -/
  locals : List Instruction
  /-- copies the spilled stack back -/
  stack : List Instruction
  /-- operands have variables of their kinds -/
  leased : List.Forall₂ Leased p.stackToSave leases
  /-- variables are apart from one another -/
  separate : Separate first (leases.filterMap id ++ base)
  /-- the loop that exits monitors -/
  exits_loop : IsMonitorLoop l Layout.exitLoop exits
  /-- code that restores variables -/
  restores_locals : RestoresData l first (leases.filterMap id ++ base)
    Interface.MethodState.getLocals p.savedLocals locals
  /-- code that restores operands -/
  restores_stack : RestoresData l first (leases.filterMap id ++ base)
    Interface.MethodState.getStack (savedStack p.stackToSave leases) stack
  /-- what stands in the place of the call -/
  inPlace_eq : IsSequence l p i leases resume exits piece.inPlace
  /-- the restore block -/
  block_eq : piece.block = l.restoreBlock p leases here resume locals stack

/-- The variables of a point are apart from those that are in use anyway. -/
theorem PointCode.shared_apart {l : Layout} {first : Nat} {base : List Lease} {p : SuspendPoint}
    {i : Instruction} {here : Label} {piece : Piece} (q : PointCode l first base p i here piece)
    {other : Lease} (hother : other ∈ base) :
    ∀ lease ∈ q.leases.filterMap id, lease.span.Apart other.span := fun lease hlease =>
  (List.pairwise_append.mp q.separate.apart).2.2 lease hlease other hother

namespace Layout

open Emit

variable {l : Layout} {first : Nat} {held : List Lease}

/-- A loop over monitors holds nothing at its end. -/
theorem makes_monitorLoop (loop : MonitorVariables → Label → Label → List Instruction) :
    Makes first held (l.monitorLoop loop) fun code held' =>
      held' = held ∧ IsMonitorLoop l loop code := by
  simp only [monitorLoop, IsMonitorLoop]
  cases l.monitors with
  | some m =>
    refine .bind .freshLabel ?_
    rintro start _ rfl
    refine .bind .freshLabel ?_
    rintro stop _ rfl
    exact .pure ⟨rfl, start, stop, rfl⟩
  | none => exact .pure ⟨rfl, rfl⟩

/-- Restoring values of a kind holds nothing at its end. -/
theorem makes_restoreArray (getter : MethodRef) (values : List SavedValue) (kind : ValueKind) :
    Makes first held (l.restoreArray getter kind values) fun code held' =>
      held' = held ∧ RestoresKind l first held getter values kind code := by
  simp only [restoreArray]
  split
  · rename_i hnone
    exact .pure ⟨rfl, .nothing hnone⟩
  · refine .bind (.acquire .object) ?_
    rintro array _ ⟨rfl, hkind⟩
    refine .separate fun hseparate => .bind (.release array) ?_
    rintro _ _ rfl
    exact .pure ⟨rfl, .elements array hkind hseparate⟩

/-- Restoring values holds nothing at its end. -/
theorem makes_restoreData (getter : MethodRef) (values : List SavedValue) :
    Makes first held (l.restoreData getter values) fun code held' =>
      held' = held ∧ RestoresData l first held getter values code := by
  refine .bind (.mapM ValueKind.all fun kind _ => makes_restoreArray getter values kind) ?_
  rintro blocks _ ⟨rfl, hblocks⟩
  exact .pure ⟨rfl, blocks, hblocks, rfl⟩

/-- A restore block holds nothing at its end. -/
theorem makes_restore (p : SuspendPoint) (leases : List (Option Lease)) (here resume : Label) :
    Makes first held (l.restore p leases here resume) fun block held' =>
      held' = held ∧ ∃ locals stack,
        RestoresData l first held Interface.MethodState.getLocals p.savedLocals locals ∧
        RestoresData l first held Interface.MethodState.getStack
          (savedStack p.stackToSave leases) stack ∧
        block = l.restoreBlock p leases here resume locals stack := by
  refine .bind (makes_restoreData _ _) ?_
  rintro locals _ ⟨rfl, hlocals⟩
  refine .bind (makes_restoreData _ _) ?_
  rintro stack _ ⟨rfl, hstack⟩
  exact .pure ⟨rfl, locals, stack, hlocals, hstack, rfl⟩

/-- A spilled operand gets a variable of its kind, if it needs one. -/
theorem makes_spill (t : SlotType) :
    Makes first held (spill t) fun lease held' => held' = lease.toList ++ held ∧ Leased t lease := by
  simp only [spill, Leased]
  split
  · rename_i kind hkind
    refine .bind (.acquire kind) ?_
    rintro lease _ ⟨rfl, hlease⟩
    exact .pure ⟨rfl, by rw [hkind, Option.map_some, hlease]⟩
  · rename_i hnone
    exact .pure ⟨rfl, by rw [hnone, Option.map_none]⟩

/-- Spilled operands get variables of their kinds. -/
theorem makes_spills (types : List SlotType) :
    Makes first held (types.mapM spill) fun leases held' =>
      held'.Perm (leases.filterMap id ++ held) ∧ List.Forall₂ Leased types leases := by
  induction types generalizing held with
  | nil => exact .pure ⟨.refl _, .nil⟩
  | cons t types ih =>
    rw [List.mapM_cons]
    refine .bind (makes_spill t) ?_
    rintro lease _ ⟨rfl, hlease⟩
    refine .bind ih ?_
    rintro leases held' ⟨hperm, hleases⟩
    refine .pure ⟨hperm.trans ?_, .cons hlease hleases⟩
    cases lease with
    | none => exact .refl _
    | some lease => exact List.perm_middle

/-- What replaces a suspending call holds nothing at its end. -/
theorem makes_sequence (p : SuspendPoint) (i : Instruction) (leases : List (Option Lease))
    (resume : Label) :
    Makes first held (l.sequence p i leases resume) fun inPlace held' =>
      held' = held ∧ ∃ exits, IsMonitorLoop l exitLoop exits ∧
        IsSequence l p i leases resume exits inPlace := by
  simp only [sequence, IsSequence]
  cases p.kind with
  | invoke =>
    refine .bind .freshLabel ?_
    rintro after _ rfl
    refine .bind (makes_monitorLoop _) ?_
    rintro exits _ ⟨rfl, hexits⟩
    exact .pure ⟨rfl, exits, hexits, after, rfl⟩
  | suspend =>
    refine .bind (makes_monitorLoop _) ?_
    rintro exits _ ⟨rfl, hexits⟩
    exact .pure ⟨rfl, exits, hexits, rfl⟩

/-- **Points.** -/
theorem makes_suspendPoint (p : SuspendPoint) (i : Instruction) (here : Label) :
    Makes first held (l.suspendPoint p i here) fun piece held' =>
      held' = held ∧ Nonempty (PointCode l first held p i here piece) := by
  simp only [suspendPoint]
  refine .bind (makes_spills _) ?_
  rintro spilled held₁ ⟨hperm, hleased⟩
  have hleases : List.Forall₂ Leased p.stackToSave spilled.reverse := by
    rw [← List.forall₂_reverse_iff, List.reverse_reverse]
    exact hleased
  have hperm' : held₁.Perm (spilled.reverse.filterMap id ++ held) := by
    rw [List.filterMap_reverse]
    exact hperm.trans ((List.reverse_perm _).symm.append_right held)
  generalize spilled.reverse = leases at hleases hperm'
  refine .perm (.separate fun hseparate => ?_) hperm'.symm
  refine .bind .freshLabel ?_
  rintro resume _ rfl
  refine .bind (makes_sequence p i leases resume) ?_
  rintro inPlace _ ⟨rfl, exits, hexits, hinPlace⟩
  refine .bind (makes_restore p leases here resume) ?_
  rintro block _ ⟨rfl, locals, stack, hlocals, hstack, hblock⟩
  refine .bind (.releaseAll _) ?_
  rintro _ _ rfl
  exact .pure ⟨rfl, ⟨{
    leases, resume, exits, locals, stack
    leased := hleases, separate := hseparate, exits_loop := hexits
    restores_locals := hlocals, restores_stack := hstack
    inPlace_eq := hinPlace, block_eq := hblock }⟩⟩

/-! ## Methods -/

/-- What becomes of the instruction at an index. -/
def IsPiece (l : Layout) (first : Nat) (base : List Lease) (restores : List Label)
    (i : Instruction × Nat) (piece : Piece) : Prop :=
  match l.plan.points.find? (·.index = i.2) with
  | some p => Nonempty (PointCode l first base p i.1 (restores.getD p.id default) piece)
  | none => piece = { inPlace := l.keep i.1, block := [] }

section

variable {l : Layout} {first : Nat} {base : List Lease} {restores : List Label} {i : Instruction}
  {index : Nat} {piece : Piece}

/-- A point becomes the code of a point. -/
theorem IsPiece.point (h : l.IsPiece first base restores (i, index) piece) {p : SuspendPoint}
    (hp : l.plan.points.find? (·.index = index) = some p) :
    Nonempty (PointCode l first base p i (restores.getD p.id default) piece) := by
  rwa [IsPiece, hp] at h

/-- Any other instruction stays, and has no restore block. -/
theorem IsPiece.keep_eq (h : l.IsPiece first base restores (i, index) piece)
    (hnone : l.plan.points.find? (·.index = index) = none) :
    piece = { inPlace := l.keep i, block := [] } := by
  rwa [IsPiece, hnone] at h

theorem IsPiece.cases (h : l.IsPiece first base restores (i, index) piece) :
    (∃ p, l.plan.points.find? (·.index = index) = some p ∧
      Nonempty (PointCode l first base p i (restores.getD p.id default) piece)) ∨
    l.plan.points.find? (·.index = index) = none ∧ piece = { inPlace := l.keep i, block := [] } := by
  cases hfind : l.plan.points.find? (·.index = index) with
  | none => exact .inr ⟨rfl, h.keep_eq hfind⟩
  | some p => exact .inl ⟨p, rfl, h.point hfind⟩

end

/-- Each instruction becomes a piece of the known shape. -/
theorem makes_piece (restores : List Label) (i : Instruction) (index : Nat) :
    Makes first held (l.piece restores i index) fun piece held' =>
      held' = held ∧ l.IsPiece first held restores (i, index) piece := by
  simp only [piece, IsPiece]
  cases l.plan.points.find? (·.index = index) with
  | some p => exact makes_suspendPoint p i _
  | none => exact .pure ⟨rfl, rfl⟩

/-- The body becomes its pieces, one for each instruction. -/
theorem makes_body (restores : List Label) :
    Makes first held (l.body restores) fun pieces held' =>
      held' = held ∧ List.Forall₂ (l.IsPiece first held restores)
        l.plan.code.instructions.toList.zipIdx pieces :=
  .mapM _ fun i _ => makes_piece restores i.1 i.2

/-- The variables that every block may use. -/
def shared (l : Layout) : List Lease :=
  match l.monitors with
  | some m => [m.monitor, m.index, m.array, m.lockState, l.state, l.continuation]
  | none => [l.state, l.continuation]

theorem continuation_mem (l : Layout) : l.continuation ∈ l.shared := by
  rw [shared]
  cases l.monitors <;> simp

theorem state_mem (l : Layout) : l.state ∈ l.shared := by
  rw [shared]
  cases l.monitors <;> simp

theorem lockState_mem (l : Layout) {v : MonitorVariables} (h : l.monitors = some v) :
    v.lockState ∈ l.shared := by
  rw [shared, h]
  simp

end Layout

namespace Expansion

/-- The code of a suspendable method. -/
structure Shape (l : Layout) (first : Nat) (e : Expansion) where
  /-- where the body begins -/
  bodyStart : Label
  /-- where the body ends -/
  bodyEnd : Label
  /-- where exceptions of the body go -/
  handler : Label
  /-- where the body as written begins -/
  written : Label
  /-- where a state goes that does not belong to the code -/
  invalid : Label
  /-- where an exception is thrown again -/
  rethrow : Label
  /-- the labels of the restore blocks -/
  restores : List Label
  /-- enters the monitors -/
  enters : List Instruction
  /-- there is a restore block for each point -/
  restores_length : restores.length = l.plan.points.length
  /-- the loop that enters monitors -/
  enters_loop : IsMonitorLoop l l.enterLoop enters
  /-- what comes in front of the body -/
  entry_eq : e.entry = l.entry bodyStart written invalid restores enters
  /-- what comes in the place of instructions -/
  pieces : List.Forall₂ (l.IsPiece first l.shared restores)
    l.plan.code.instructions.toList.zipIdx e.pieces
  /-- what comes at the end -/
  exit_eq : e.exit = l.exit bodyEnd handler rethrow
  /-- the handlers of the body, and the one around it -/
  handlers_eq : e.handlers = l.plan.code.handlers ++
    [{ start := bodyStart, stop := bodyEnd, entry := handler, caught := none }]

end Expansion

namespace Layout

open Emit

variable {l : Layout} {first : Nat}

/-- A method that is made has the known shape. -/
theorem makes_method :
    Makes first l.shared l.method fun e held' =>
      held' = l.shared ∧ Nonempty (e.Shape l first) := by
  simp only [method]
  refine .bind .freshLabel ?_
  rintro bodyStart _ rfl
  refine .bind .freshLabel ?_
  rintro bodyEnd _ rfl
  refine .bind .freshLabel ?_
  rintro handler _ rfl
  refine .bind .freshLabel ?_
  rintro written _ rfl
  refine .bind .freshLabel ?_
  rintro invalid _ rfl
  refine .bind (.mapM (R := fun _ _ => True) _ fun _ _ =>
    Makes.freshLabel.mono fun _ _ h => ⟨h, trivial⟩) ?_
  rintro restores _ ⟨rfl, hrestores⟩
  refine .bind (makes_monitorLoop _) ?_
  rintro enters _ ⟨rfl, henters⟩
  refine .bind (makes_body restores) ?_
  rintro pieces _ ⟨rfl, hpieces⟩
  refine .bind .freshLabel ?_
  rintro rethrow _ rfl
  exact .pure ⟨rfl, ⟨{
    bodyStart, bodyEnd, handler, written, invalid, rethrow, restores, enters
    restores_length := hrestores.length_eq.symm
    enters_loop := henters, entry_eq := rfl, pieces := hpieces, exit_eq := rfl
    handlers_eq := rfl }⟩⟩

/-- What is known of the variables that every block may use. The first ones come right after the
locals of the method. -/
structure Ready (l : Layout) (first : Nat) : Prop where
  /-- variables are apart from one another -/
  separate : Separate first l.shared
  /-- the continuation comes first -/
  continuation_slot : l.continuation.slot = first
  /-- it is an object -/
  continuation_kind : l.continuation.kind = .object
  /-- the state is an object -/
  state_kind : l.state.kind = .object
  /-- the record of monitors comes behind the two -/
  lockState_slot : ∀ m, l.monitors = some m → m.lockState.slot = first + 2
  /-- it is an object -/
  lockState_kind : ∀ m, l.monitors = some m → m.lockState.kind = .object
  /-- the array of monitors is an object -/
  array_kind : ∀ m, l.monitors = some m → m.array.kind = .object
  /-- the position in it is a number -/
  index_kind : ∀ m, l.monitors = some m → m.index.kind = .int
  /-- a monitor is an object -/
  monitor_kind : ∀ m, l.monitors = some m → m.monitor.kind = .object

end Layout

namespace Emit

/-- The first lease of a table without slots to lease again is above all others. -/
theorem acquire_fresh {kind : ValueKind} {label : Label} {slot generation : Nat} {l : Lease}
    {s' : EmitState} (h : acquire kind ⟨label, slot, [], [], generation⟩ = .ok (l, s')) :
    l = ⟨slot, kind, generation + 1⟩ ∧
      s' = ⟨label, slot + kind.width, [], [], generation + 1⟩ := by
  simp only [acquire, ScratchTable.acquire, ScratchTable.lease, ite_self] at h
  split at h
  · rename_i hok
    split at hok
    · cases hok
      cases h
      exact ⟨rfl, rfl⟩
    · cases hok
  · cases h

/-- A run of two computations is a run of each. -/
theorem bind_ok {α β : Type} {x : Emit α} {f : α → Emit β} {s s'' : EmitState} {b : β}
    (h : (x >>= f) s = .ok (b, s'')) : ∃ a s', x s = .ok (a, s') ∧ f a s' = .ok (b, s'') := by
  simp only [bind, StateT.bind, Except.bind] at h
  split at h
  · cases h
  · exact ⟨_, _, ‹_›, h⟩

/-- A layout that is made is ready for its method. -/
theorem layout_ready {settings : Settings} {plan : MethodPlan} {label : Label} {first : Nat}
    {l : Layout} {s' : EmitState}
    (h : layout settings plan ⟨label, .ofFirst first⟩ = .ok (l, s')) :
    l.settings = settings ∧ l.plan = plan ∧ l.monitors.isSome = plan.code.hasMonitors ∧
      l.Ready first ∧ s'.scratch.Tracks first l.shared := by
  have ht₀ := ScratchTable.Tracks.ofFirst first
  obtain ⟨continuation, s₁, hcontinuation, h⟩ := bind_ok h
  obtain ⟨_, ht₁, rfl, -⟩ := Makes.acquire .object _ _ _ hcontinuation ht₀
  obtain ⟨rfl, rfl⟩ := acquire_fresh hcontinuation
  obtain ⟨state, s₂, hstate, h⟩ := bind_ok h
  obtain ⟨_, ht₂, rfl, -⟩ := Makes.acquire .object _ _ _ hstate ht₁
  obtain ⟨rfl, rfl⟩ := acquire_fresh hstate
  cases hmonitors : plan.code.hasMonitors with
  | false =>
    simp only [hmonitors, Bool.false_eq_true, if_false] at h
    cases h
    refine ⟨rfl, rfl, rfl, ⟨⟨ht₂.held_apart, ht₂.held_first, ht₂.held_room⟩, rfl, rfl, rfl,
      ?_, ?_, ?_, ?_, ?_⟩, ht₂⟩
      <;> rintro _ ⟨⟩
  | true =>
    simp only [hmonitors, if_true, map_eq_pure_bind] at h
    obtain ⟨_, s₇, hvariables, h⟩ := bind_ok h
    cases h
    obtain ⟨m, s₆, hvariables, h⟩ := bind_ok hvariables
    cases h
    obtain ⟨lockState, s₃, hlockState, h⟩ := bind_ok hvariables
    obtain ⟨_, ht₃, rfl, -⟩ := Makes.acquire .object _ _ _ hlockState ht₂
    obtain ⟨rfl, rfl⟩ := acquire_fresh hlockState
    obtain ⟨array, s₄, harray, h⟩ := bind_ok h
    obtain ⟨_, ht₄, rfl, -⟩ := Makes.acquire .object _ _ _ harray ht₃
    obtain ⟨rfl, rfl⟩ := acquire_fresh harray
    obtain ⟨index, s₅, hindex, h⟩ := bind_ok h
    obtain ⟨_, ht₅, rfl, -⟩ := Makes.acquire .int _ _ _ hindex ht₄
    obtain ⟨rfl, rfl⟩ := acquire_fresh hindex
    obtain ⟨monitor, s₆, hmonitor, h⟩ := bind_ok h
    obtain ⟨_, ht₆, rfl, -⟩ := Makes.acquire .object _ _ _ hmonitor ht₅
    obtain ⟨rfl, rfl⟩ := acquire_fresh hmonitor
    cases h
    refine ⟨rfl, rfl, rfl, ⟨⟨ht₆.held_apart, ht₆.held_first, ht₆.held_room⟩, rfl, rfl, rfl,
      ?_, ?_, ?_, ?_, ?_⟩, ht₆⟩
      <;> (rintro _ ⟨⟩; rfl)

end Emit

/-- **The code of a suspendable method.** -/
theorem expansion_shape {settings : Settings} {plan : MethodPlan} {e : Expansion}
    (h : expansion settings plan = .ok e) :
    ∃ l : Layout, l.settings = settings ∧ l.plan = plan ∧
      l.monitors.isSome = plan.code.hasMonitors ∧ l.Ready plan.analysis.maxLocals ∧
      Nonempty (e.Shape l plan.analysis.maxLocals) := by
  simp only [expansion, bind, Except.bind] at h
  split at h
  · cases h
  · rename_i result hrun
    obtain ⟨l, s, hlayout, hmethod⟩ := Emit.bind_ok hrun
    obtain ⟨hsettings, hplan, hmonitors, hready, htracks⟩ := Emit.layout_ready hlayout
    obtain ⟨_, _, _, hshape⟩ := Layout.makes_method _ _ _ hmethod htracks
    cases h
    exact ⟨l, hsettings, hplan, hmonitors, hready, hshape⟩

end Resumption
