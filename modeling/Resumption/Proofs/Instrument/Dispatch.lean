import Resumption.Proofs.Analysis.Searching
import Resumption.Proofs.Coroutine.Reached
import Resumption.Proofs.Instrument.Rejecting

/-!
# Which frames a suspendable class goes on with

A marked class says which frames it can load, and its methods look for themselves when they are
called while their continuation is loading. Both agree.

* **`Generated.Entered`** is such a call, and **`Generated.Restores`** says that it gets to the
  restore block of a point.
* **`Generated.Entered.restores_iff`**: it does if and only if the numbers of the method state are
  those of the method.
* **`Generated.Entered.throws`**: otherwise it throws. No restore block is run before it does
  (`Generated.Entered.not_restores`).
* **`suspendableClass_dispatch`**: what the methods accept is what the class lists.
-/

namespace Resumption

namespace Layout

variable {l : Layout}

/-- The only place that code after the restore blocks jumps to is its end. -/
theorem exit_targets {bodyEnd handler rethrow : Label} {i : Instruction}
    (hi : i ∈ l.exit bodyEnd handler rethrow) : ∀ x ∈ i.targets, x = rethrow := by
  have hnone {i : Instruction} (hi : i.targets = []) : ∀ x ∈ i.targets, x = rethrow := by
    rw [hi]
    exact List.forall_mem_nil _
  have hrollback : ∀ i ∈ l.rollback, i.targets = [] := by
    rw [rollback]
    split <;> simp [callStatic, Instruction.targets]
  simp only [exit, unlessMode, List.mem_append, List.mem_cons, List.not_mem_nil, or_false] at hi
  rcases hi with (((hi | hi) | hi) | hi) | hi
  · rcases hi with rfl | rfl <;> exact hnone rfl
  · rcases hi with rfl | rfl | rfl | rfl
    · exact hnone rfl
    · exact hnone rfl
    · exact hnone rfl
    · exact fun x hx => List.mem_singleton.mp hx
  · rcases hi with rfl | rfl <;> exact hnone rfl
  · exact hnone (hrollback i hi)
  · rcases hi with rfl | rfl <;> exact hnone rfl

end Layout

namespace Expansion

variable {e : Expansion} {body : Body}

/-- Restore blocks are between the body as written and the code after them. -/
theorem blockPosition_bounds {index : Nat} {piece : Piece} (h : e.pieces[index]? = some piece) :
    e.entry.length ≤ e.blockPosition index ∧
      e.blockPosition index + piece.block.length ≤ e.exitPosition := by
  constructor
  · simp only [blockPosition]
    omega
  · rw [exitPosition, flatMap_split (f := (·.block)) h, blockPosition]
    simp only [List.length_append]
    omega

/-- What stands after the restore blocks. -/
theorem mem_exit (h : body.instructions.toList = e.instructions) {index : Nat} {i : Instruction}
    (hi : body.instructions[index]? = some i) (hindex : e.exitPosition ≤ index) : i ∈ e.exit := by
  rw [← Array.getElem?_toList, h, instructions, List.getElem?_append_right] at hi
  · exact List.mem_of_getElem? hi
  · simpa [exitPosition, Nat.add_assoc] using hindex

end Expansion

namespace Generated

variable {settings : Settings} {h : Hierarchy} {owner : ClassName} {method : Method}
  {made : SuspendableMethod} {g : Generated settings h owner method made} {m : Machine}

/-! ## Where a rejected call gets to -/

/-- The places that are left once a method state was rejected: where the exception is made and
thrown, and the last handler. -/
def Laid.Rejects (at_ : g.Laid) (index : Nat) : Prop :=
  (at_.invalidPosition ≤ index ∧ index < at_.invalidPosition + 3) ∨ g.parts.exitPosition ≤ index

/-- Handlers lead to the last one from there, if anywhere. -/
theorem Laid.covers_rejects (at_ : g.Laid) {handler : HandlerRange × Option ClassName} {index : Nat}
    (hmem : handler ∈ g.body.handlers) (hcovers : handler.1.covers index = true)
    (hindex : at_.Rejects index) : at_.Rejects handler.1.entry := by
  obtain ⟨before, hsplit, hbefore⟩ := at_.handlers_split
  have hentry := at_.invalidPosition_bounds.2
  rw [hsplit] at hmem
  rcases List.mem_append.mp hmem with hmem | hmem
  · have hapart : index < g.parts.entry.length ∨ g.parts.exitPosition ≤ index :=
      hindex.imp (fun hinvalid => by omega) id
    rw [at_.moved_apart (hbefore handler hmem) hapart] at hcovers
    cases hcovers
  · obtain rfl := List.mem_singleton.mp hmem
    exact .inr (Nat.le_succ _)

/-- The end of the last handler. -/
theorem Laid.find_rethrow (at_ : g.Laid) : ∃ position,
    g.body.positions.find at_.shape.rethrow = .ok position ∧ g.parts.exitPosition ≤ position := by
  have hat := Expansion.has_exit g.body_has
  rw [at_.shape.exit_eq, Layout.exit] at hat
  obtain ⟨-, hrethrow⟩ := Body.Has.append_iff.mp hat
  exact ⟨_, Body.find_label g.body_eq hrethrow, Nat.le_add_right _ _⟩

/-- **No step leads out of these places.** -/
theorem Laid.rejects_closed (at_ : g.Laid) {run : MethodRunner} (hrun : Body.Plain run)
    {a b : Activation} {m m' : Machine} (ha : at_.Rejects a.index)
    (hstep : g.body.advance (Run.callees run) a m = .ok (.continue b) m') : at_.Rejects b.index := by
  obtain ⟨i, hi, harrives⟩ := Body.advance_arrives hrun hstep
  cases harrives with
  | handler hmem hcovers htarget =>
    rw [htarget]
    exact at_.covers_rejects hmem hcovers ha
  | next hfalls htarget =>
    rw [htarget]
    rcases ha with ⟨hfrom, hto⟩ | hexit
    · refine .inl ⟨Nat.le_succ_of_le hfrom, Nat.lt_of_le_of_ne hto fun hend => ?_⟩
      -- it is not gone on from `throw`
      have hthrow := (at_.has_invalid.slice 2 1).getElem?
      rw [show a.index = at_.invalidPosition + 2 by omega, hthrow] at hi
      cases hi
      cases hfalls
    · exact .inr (Nat.le_succ_of_le hexit)
  | @jump x hl htarget =>
    rcases ha with ⟨hfrom, hto⟩ | hexit
    · obtain ⟨n, hn⟩ := Nat.exists_eq_add_of_le hfrom
      have hlt : n < 3 := by omega
      rw [hn] at hi
      have hat := at_.has_invalid
      interval_cases n
      · rw [(hat.slice 0 1).getElem?] at hi
        cases hi
        cases hl
      · rw [(hat.slice 1 1).getElem?] at hi
        cases hi
        cases hl
      · rw [(hat.slice 2 1).getElem?] at hi
        cases hi
        cases hl
    · obtain ⟨position, hfind, hle⟩ := at_.find_rethrow
      have hmem := Expansion.mem_exit g.body_has hi hexit
      rw [at_.shape.exit_eq] at hmem
      rw [Layout.exit_targets hmem x hl, hfind] at htarget
      cases htarget
      exact .inr hle

/-! ## Calls while loading -/

/-- A call of the method while its continuation is loading, with a method state next. If the method
has monitors, the method state comes with a lock state. -/
structure Entered (g : Generated settings h owner method made) (m : Machine)
    (arguments : List Value) (state : MethodState) (cont r : Ref) (c : Continuation Ref) : Prop where
  /-- the machine offers what generated code calls -/
  serves : m.Serves settings
  /-- the arguments conform to the descriptor -/
  called : method.Called owner cont arguments
  /-- the handle refers to a continuation -/
  continuation : m.object? cont = some (.continuation c)
  /-- states are being loaded -/
  loading : c.mode = .loading
  /-- there is a state to be loaded -/
  next : c.saved[c.nextLoad]? = some r
  /-- it is a saved state -/
  object : m.object? r = some (.methodState state)
  /-- its record of monitors is one, if the method needs it -/
  locks : g.HasLocks m state.lockState

/-- Is this the place of the restore block of a point, by the number of the point? -/
def HasBlock (g : Generated settings h owner method made) (number : Int32) (place : Nat) : Prop :=
  ∃ (n : Nat) (p : SuspendPoint), number.toInt = n ∧ g.plan.points[n]? = some p ∧
    place = g.parts.blockPosition p.index

/-- Does the call get to the restore block of a point? -/
def Restores (g : Generated settings h owner method made) (limit depth : Nat) (name : String)
    (arguments : List Value) (m : Machine) (number : Int32) : Prop :=
  ∃ (a : Activation) (m' : Machine), g.HasBlock number a.index ∧
    Body.Reaches (Run.callees (runMethod limit depth)) g.body
      { method := name, locals := argumentLocals arguments, stack := [], index := 0 } m a m'

variable {limit depth : Nat} {name : String} {arguments : List Value} {state : MethodState} {cont r : Ref}
  {c : Continuation Ref} {number : Int32} {place : Nat}

/-- A block is there for every point, and for no other number. -/
theorem exists_hasBlock :
    (∃ place, g.HasBlock number place) ↔
      0 ≤ number.toInt ∧ number.toInt < g.plan.points.length := by
  constructor
  · rintro ⟨_, n, p, hn, hget, -⟩
    have := (List.getElem?_eq_some_iff.mp hget).1
    omega
  · rintro ⟨hnonneg, hlt⟩
    have hn : number.toInt.toNat < g.plan.points.length := by omega
    exact ⟨_, _, _, (Int.toNat_of_nonneg hnonneg).symm, List.getElem?_eq_getElem hn, rfl⟩

/-- The block of a point is none of the places that are left to a rejected call. -/
theorem HasBlock.apart (hblock : g.HasBlock number place) (at_ : g.Laid) :
    g.parts.entry.length ≤ place ∧ ¬ at_.Rejects place := by
  obtain ⟨n, p, -, hget, rfl⟩ := hblock
  obtain ⟨located⟩ := g.located (List.mem_of_getElem? hget)
  obtain ⟨hfrom, hto⟩ := Expansion.blockPosition_bounds located.piece_eq
  have hentry := at_.invalidPosition_bounds.2
  have hlabel : 0 < located.piece.block.length := by
    rw [located.q.block_eq, Layout.restoreBlock]
    simp only [List.length_append, List.length_singleton]
    omega
  refine ⟨hfrom, ?_⟩
  rintro (⟨-, hlt⟩ | hexit)
  · omega
  · omega

/-- **A method state that is accepted**: the call gets to the restore block of its point. -/
theorem Entered.restores (hentered : g.Entered m arguments state cont r c)
    (haccepts : g.plan.Accepts state) : g.Restores limit depth name arguments m state.point := by
  obtain ⟨hid, hversion, hrange⟩ := haccepts
  obtain ⟨place, hblock⟩ := exists_hasBlock.mpr hrange
  obtain ⟨n, p, hn, hget, rfl⟩ := id hblock
  obtain ⟨at_⟩ := g.located (List.mem_of_getElem? hget)
  have hpoint : p.id = n := by
    rw [(planMethod_inv g.plan_eq).2.2.2.2] at hget
    exact getElem?_point hget
  have hlt : n < 2 ^ 31 := by
    have := state.point.toInt_lt
    omega
  have hnumber : state.point = Int32.ofNat p.id :=
    Int32.toInt_inj.mp (by rw [hn, hpoint, Int32.toInt_ofNat_of_lt hlt])
  have hat := Expansion.has_entry g.body_has
  rw [at_.shape.entry_eq] at hat
  obtain ⟨a, m', hreaches, -⟩ := Body.reaches_entry (Body.plain_runMethod limit depth) g.body_eq hat
    at_.shape.enters_loop at_.ready (at_.serves hentered.serves)
    (by rw [at_.plan_eq]; exact called_continuation hentered.called name) hentered.continuation
    hentered.loading hentered.next hentered.object (by rw [at_.plan_eq]; exact hid)
    (by rw [at_.plan_eq]; exact hversion) (at_.laid.hasLocks hentered.locks)
    (hnumber ▸ (Step.tableTarget_ofNat (hpoint ▸ hlt)).symm ▸ at_.find_block)
  exact ⟨_, _, hblock, hreaches⟩

/-- **A method state that is not accepted**: the call gets to no restore block. -/
theorem Entered.not_restores (hentered : g.Entered m arguments state cont r c)
    (hnot : ¬ g.plan.Accepts state) : ¬ g.Restores limit depth name arguments m number := by
  rintro ⟨a, m', hblock, hreaches⟩
  obtain ⟨at_⟩ := g.laid
  obtain ⟨hentry, hapart⟩ := hblock.apart at_
  obtain ⟨front, b, m₁, hbegins, hsize, hpath, -⟩ := at_.reaches_invalid hentered.serves
    hentered.continuation hentered.loading hentered.next hentered.object hnot
    (fun _ _ => hentered.locks) hentered.called limit depth name
  rcases hbegins.reached hpath hreaches with hinside | hbehind
  · omega
  · exact hapart (hbehind.stays
      (fun _ _ _ _ => at_.rejects_closed (Body.plain_runMethod limit depth)) (.inl (by simp)))

/-- **A call while loading** gets to the restore block of the point that its method state names if and
only if the method accepts the method state. -/
theorem Entered.restores_iff (hentered : g.Entered m arguments state cont r c) :
    g.Restores limit depth name arguments m state.point ↔ g.plan.Accepts state := by
  refine ⟨fun hrestores => ?_, hentered.restores⟩
  by_contra hnot
  exact hentered.not_restores hnot hrestores

/-- **Otherwise it throws** the new exception that is made for such states. -/
theorem Entered.throws (hentered : g.Entered m arguments state cont r c)
    (hnot : ¬ g.plan.Accepts state) : ∃ exception m',
      Body.Throws (Run.callees (runMethod limit depth)) g.body
        { method := name, locals := argumentLocals arguments, stack := [], index := 0 } m
        (.exception exception) m' ∧ m.object? exception = none ∧ m'.Unrecognized exception := by
  obtain ⟨exception, m', hthrows, hrewound⟩ := rejects hentered.serves hentered.continuation
    hentered.loading hentered.next hentered.object hnot (fun _ _ => hentered.locks) hentered.called
    limit depth name
  obtain ⟨-, -, -, -, -, hnew, -⟩ := id hrewound
  exact ⟨exception, m', hthrows, hnew, hrewound.unrecognized⟩

end Generated

/-! ## There are such calls -/

/-- An argument, where a continuation is passed whenever there can be one. -/
def argumentOf (cont : Ref) (t : FieldType) : Value :=
  if t = .object .continuation then .ref cont else .zero t

theorem width_argumentOf (cont : Ref) (t : FieldType) : (argumentOf cont t).width = t.width := by
  rw [argumentOf]
  split
  · rename_i ht
    rw [ht]
    rfl
  · cases t with
    | base kind => cases kind <;> rfl
    | ref type => rfl

theorem continuation_of_slot {slot s : Nat} {types : List FieldType}
    (h : continuationSlotFrom? slot types = some s) :
    types[types.findIdx (· = .object .continuation)]? = some (.object .continuation) := by
  induction types generalizing slot with
  | nil => cases h
  | cons t types ih =>
    rw [continuationSlotFrom?] at h
    rw [List.findIdx_cons]
    by_cases ht : t = .object .continuation
    · simp [ht]
    · rw [if_neg ht] at h
      simpa [ht] using ih h

/-- A method with a continuation can be called with one. -/
theorem Method.exists_called {method : Method} {slot : Nat}
    (hslot : method.continuationSlot? = some slot) (owner : ClassName) (cont : Ref) :
    method.Called owner cont ((method.argumentTypes owner).map (argumentOf cont)) where
  widths := by
    rw [List.forall₂_map_right_iff]
    exact List.forall₂_same.mpr fun t _ => width_argumentOf cont t
  same := by
    have hget := continuation_of_slot hslot
    rw [List.getElem?_map, argumentTypes, continuationArgument]
    cases method.isStatic with
    | true => simp [hget, argumentOf]
    | false => simp [hget, argumentOf, Nat.add_comm 1]

/-- A machine with a continuation that is loading, and the method state that is next. -/
def Machine.loading (settings : Settings) (state : MethodState) : Machine :=
  { Machine.new with
    natives := settings.natives
    heap := #[.printStream, .continuation { Continuation.ofSaved [⟨2⟩] with mode := .loading },
      .methodState state, .lockState .empty] }

theorem Machine.serves_loading (settings : Settings) (state : MethodState) :
    (loading settings state).Serves settings where
  standard := (provided_natives settings).standard
  allocator := (provided_natives settings).allocator
  printing := fun _ => .inl rfl
  literals := fun _ _ h => absurd h.symm (Option.some_ne_none _)

/-- **Calls while loading** there are with any numbers in the method state that is next. -/
theorem Generated.exists_entered {settings : Settings} {h : Hierarchy} {owner : ClassName}
    {method : Method} {made : SuspendableMethod} (g : Generated settings h owner method made)
    (id version point : Int32) : ∃ m arguments state cont r c,
      g.Entered m arguments state cont r c ∧
        state.id = id ∧ state.version = version ∧ state.point = point := by
  let state : MethodState :=
    { owner := owner.text, id, version, point
      lockState := .ref ⟨3⟩, locals := .null, stack := .null }
  exact ⟨.loading settings state, _, state, ⟨1⟩, ⟨2⟩, _, {
    serves := Machine.serves_loading settings state
    called := Method.exists_called g.slot_eq owner ⟨1⟩
    continuation := rfl, loading := rfl, next := rfl, object := rfl
    locks := fun _ => ⟨⟨3⟩, .empty, rfl, rfl⟩ }, rfl, rfl, rfl⟩

/-! ## What a class lists -/

/-- Are these numbers of a method state listed? -/
def MethodSummary.Lists (s : MethodSummary) (id version point : Int32) : Prop :=
  id = s.id ∧ version = s.version ∧ 0 ≤ point.toInt ∧ point.toInt < s.points

theorem MethodSummary.accepts_iff {s : MethodSummary} {k : FrameKey} :
    s.accepts k = true ↔ s.Lists k.id k.version k.point := by
  simp only [accepts, Lists, Bool.and_eq_true, decide_eq_true_eq, and_assoc, eq_comm (a := s.id),
    eq_comm (a := s.version)]

/-- A method that was made suspendable. -/
structure ListedMethod (settings : Settings) (h : Hierarchy) (owner : ClassName) where
  /-- the method as written -/
  method : Method
  /-- what is made of it -/
  made : SuspendableMethod
  /-- how its code was generated -/
  generated : Generated settings h owner method made

namespace ListedMethod

variable {settings : Settings} {h : Hierarchy} {owner : ClassName}

/-- Does the method go on from states with these numbers, whenever it is called while they are
loaded? -/
def Accepts (x : ListedMethod settings h owner) (id version point : Int32) : Prop :=
  ∀ {m arguments state cont r c}, x.generated.Entered m arguments state cont r c →
    state.id = id → state.version = version → state.point = point →
    ∀ limit depth name, x.generated.Restores limit depth name arguments m point

/-- The method is the one as written with other code, and what is listed for it is what its code
looks for when it is called while loading. -/
structure Dispatches (x : ListedMethod settings h owner) : Prop where
  /-- nothing but the code is changed -/
  same : x.made.method = { x.method with code := some x.generated.code }
  /-- the class lists the method by its name -/
  name : x.made.summary.name = x.method.name
  /-- and by its descriptor -/
  descriptor : x.made.summary.descriptor = x.method.descriptor
  /-- it has at least one point -/
  points : 1 ≤ x.made.summary.points
  /-- a state of this version goes to its restore block -/
  restores : ∀ {m arguments state cont r c}, x.generated.Entered m arguments state cont r c →
    ∀ limit depth name, x.generated.Restores limit depth name arguments m state.point ↔
      x.made.summary.Lists state.id state.version state.point
  /-- any other state is refused -/
  throws : ∀ {m arguments state cont r c}, x.generated.Entered m arguments state cont r c →
    ¬ x.made.summary.Lists state.id state.version state.point → ∀ limit depth name,
      (∀ number, ¬ x.generated.Restores limit depth name arguments m number) ∧
      ∃ exception m', Body.Throws (Run.callees (runMethod limit depth)) x.generated.body
          { method := name, locals := argumentLocals arguments, stack := [], index := 0 } m
          (.exception exception) m' ∧
        m.object? exception = none ∧ m'.Unrecognized exception

/-- **What a method accepts is what is listed for it.** -/
theorem Dispatches.accepts_iff {x : ListedMethod settings h owner} (hx : x.Dispatches)
    {id version point : Int32} :
    x.Accepts id version point ↔ x.made.summary.Lists id version point := by
  constructor
  · intro haccepts
    obtain ⟨m, arguments, state, cont, r, c, hentered, rfl, rfl, rfl⟩ :=
      x.generated.exists_entered id version point
    exact (hx.restores hentered 0 0 "").mp (haccepts hentered rfl rfl rfl 0 0 "")
  · rintro hlists m arguments state cont r c hentered rfl rfl rfl limit depth name
    exact (hx.restores hentered limit depth name).mpr hlists

/-- Every method that is made suspendable does. -/
theorem exists_dispatches {method : Method} {made : SuspendableMethod}
    (hmade : makeSuspendable settings h owner method = .ok (some made)) :
    ∃ x : ListedMethod settings h owner, x.method = method ∧ x.made = made ∧ x.Dispatches := by
  obtain ⟨g, hpoints, hsame, hsummary⟩ := makeSuspendable_inv hmade
  have hlists {state : MethodState} :
      made.summary.Lists state.id state.version state.point ↔ g.plan.Accepts state := by
    rw [hsummary]
    exact Iff.rfl
  refine ⟨⟨method, made, g⟩, rfl, rfl, {
    same := hsame
    name := by rw [hsummary]
    descriptor := by rw [hsummary]
    points := by
      rw [hsummary]
      exact List.length_pos_iff.mpr hpoints
    restores := fun hentered limit depth name => hentered.restores_iff.trans hlists.symm
    throws := fun hentered hnot limit depth name =>
      ⟨fun number => hentered.not_restores (mt hlists.mpr hnot),
        hentered.throws (mt hlists.mpr hnot)⟩ }⟩

/-- The methods of a class, as they were made suspendable or stay as they are. -/
theorem exists_listed {methods : List Method} {made : List (Option SuspendableMethod)}
    (hmade : List.Forall₂ (fun method result => makeSuspendable settings h owner method = .ok result)
      methods made) :
    ∃ listed : List (Option (ListedMethod settings h owner)),
      List.Forall₂ (fun method result => ∀ x ∈ result, x.method = method) methods listed ∧
      listed.map (·.map (·.made)) = made ∧ ∀ x, some x ∈ listed → x.Dispatches := by
  induction hmade with
  | nil => exact ⟨[], .nil, rfl, fun _ hx => absurd hx List.not_mem_nil⟩
  | @cons method result methods made hresult hrest ih =>
    obtain ⟨listed, hmethods, hlisted, hdispatches⟩ := ih
    cases result with
    | none =>
      refine ⟨none :: listed, .cons (fun _ hx => absurd hx (Option.not_mem_none _)) hmethods, ?_, ?_⟩
      · rw [List.map_cons, hlisted]
        rfl
      · intro x hx
        exact hdispatches x (List.mem_of_ne_of_mem (Option.some_ne_none x) hx)
    | some made' =>
      obtain ⟨x, hmethod, rfl, hx⟩ := exists_dispatches hresult
      refine ⟨some x :: listed, .cons ?_ hmethods, ?_, ?_⟩
      · rintro y hy
        rw [← Option.some.inj hy]
        exact hmethod
      · rw [List.map_cons, hlisted]
        rfl
      · intro y hy
        rcases List.mem_cons.mp hy with hy | hy
        · rw [Option.some.inj hy]
          exact hx
        · exact hdispatches y hy

end ListedMethod

namespace Class

/-- The attributes that mark a class, if methods were made suspendable. -/
def markers (methods : List MethodSummary) : List Attribute :=
  if methods.isEmpty then [] else [.instrumented methods]

theorem markAttributes_unmarked {attributes : List Attribute} (methods : List MethodSummary)
    (h : (attributes.any fun a => (summariesOf a).isSome) = false) :
    markAttributes methods attributes = attributes ++ [.instrumented methods] := by
  induction attributes with
  | nil => rfl
  | cons a attributes ih =>
    obtain ⟨ha, hattributes⟩ := Bool.or_eq_false_iff.mp h
    cases a with
    | instrumented existing => cases ha
    | sourceFile name => exact congrArg (_ :: ·) (ih hattributes)
    | unknown name data => exact congrArg (_ :: ·) (ih hattributes)

/-- An unmarked class lists nothing. -/
theorem summaries_unmarked {c : Class} (h : c.isMarked = false) : c.summaries = [] := by
  refine List.flatMap_eq_nil_iff.mpr fun a ha => ?_
  have hnone := List.any_eq_false.mp h a ha
  rw [Bool.not_eq_true, Option.isSome_eq_false_iff, Option.isNone_iff_eq_none] at hnone
  rw [hnone]
  rfl

theorem flatMap_markers (methods : List MethodSummary) :
    (markers methods).flatMap (fun a => (summariesOf a).getD []) = methods := by
  cases methods with
  | nil => rfl
  | cons s methods => exact List.append_nil _

end Class

section

variable {settings : Settings} {h : Hierarchy} {c out : Class}

/-- Methods stay as they are if nothing is listed. -/
theorem zipWith_none {R : Method → Option SuspendableMethod → Prop} {methods : List Method}
    {made : List (Option SuspendableMethod)} (hmade : List.Forall₂ R methods made)
    (hnone : made.filterMap (·.map (·.summary)) = []) :
    List.zipWith (fun method made => (made.map (·.method)).getD method) methods made = methods := by
  induction hmade with
  | nil => rfl
  | @cons method result methods made hresult hrest ih =>
    cases result with
    | none => exact congrArg (method :: ·) (ih hnone)
    | some made' => cases hnone

/-- An unmarked class is left with its methods, and marked behind its attributes. -/
theorem suspendableClass_inv (hunmarked : c.isMarked = false)
    (hok : suspendableClass settings h c = .ok out) : ∃ made,
    List.Forall₂ (fun method result =>
      makeSuspendable settings (c.within h) c.name method = .ok result) c.methods made ∧
    out = { c with
      methods := List.zipWith (fun method made => (made.map (·.method)).getD method) c.methods made
      attributes := c.attributes ++ Class.markers (made.filterMap (·.map (·.summary))) } := by
  simp only [suspendableClass, hunmarked, Bool.false_eq_true, if_false] at hok
  obtain ⟨made, hmade, hok⟩ := Except.bind_ok.mp hok
  have hresults := mapM_ok_iff.mp hmade
  refine ⟨made, hresults, ?_⟩
  split at hok
  · rename_i hnone
    cases hok
    rw [Class.markers, if_pos hnone, List.append_nil,
      zipWith_none hresults (List.isEmpty_iff.mp hnone)]
  · rename_i hsome
    cases hok
    rw [Class.mark, Class.markAttributes_unmarked _ hunmarked, Class.markers, if_neg hsome,
      List.zip, List.map_zipWith]

/-- **The class, its code and its marker agree.** Methods of an unmarked class that are made suspendable
differ in their code only, and the class lists them in the order of its methods. A listed method
dispatches as it is listed, and the frames that can be loaded are those that a listed method accepts. -/
theorem suspendableClass_dispatch (hunmarked : c.isMarked = false)
    (hok : suspendableClass settings h c = .ok out) :
    ∃ listed : List (Option (ListedMethod settings (c.within h) c.name)),
      List.Forall₂ (fun method result => ∀ x ∈ result, x.method = method) c.methods listed ∧
      out = { c with
        methods := List.zipWith (fun method result => (result.map (·.made.method)).getD method)
          c.methods listed
        attributes := c.attributes ++ Class.markers out.summaries } ∧
      out.summaries = listed.filterMap (·.map (·.made.summary)) ∧
      (∀ x, some x ∈ listed → x.Dispatches) ∧
      ∀ k, isLoadable [out] k = true ↔
        k.owner = c.name.text ∧ ∃ x, some x ∈ listed ∧ x.Accepts k.id k.version k.point := by
  obtain ⟨made, hmade, hout⟩ := suspendableClass_inv hunmarked hok
  obtain ⟨listed, hmethods, rfl, hdispatches⟩ := ListedMethod.exists_listed hmade
  simp only [List.zipWith_map_right, List.filterMap_map, Function.comp_def, Option.map_map] at hout
  have hsummaries : out.summaries = listed.filterMap (·.map (·.made.summary)) := by
    have hbefore := Class.summaries_unmarked hunmarked
    rw [Class.summaries] at hbefore
    rw [hout, Class.summaries, List.flatMap_append, hbefore, List.nil_append,
      Class.flatMap_markers]
  refine ⟨listed, hmethods, ?_, hsummaries, hdispatches, fun k => ?_⟩
  · rw [hsummaries]
    exact hout
  · have hname : out.name = c.name := by rw [hout]
    simp only [isLoadable, List.any_cons, List.any_nil, Bool.or_false, Bool.and_eq_true,
      decide_eq_true_eq, hname, eq_comm (a := c.name.text), List.any_eq_true, hsummaries]
    refine and_congr_right fun _ => ⟨?_, ?_⟩
    · rintro ⟨s, hs, haccepts⟩
      obtain ⟨result, hresult, hs⟩ := List.mem_filterMap.mp hs
      obtain ⟨x, rfl, rfl⟩ := Option.map_eq_some_iff.mp hs
      exact ⟨x, hresult, (hdispatches x hresult).accepts_iff.mpr
        (MethodSummary.accepts_iff.mp haccepts)⟩
    · rintro ⟨x, hx, haccepts⟩
      refine ⟨x.made.summary, List.mem_filterMap.mpr ⟨some x, hx, rfl⟩, ?_⟩
      exact MethodSummary.accepts_iff.mpr ((hdispatches x hx).accepts_iff.mp haccepts)

end

namespace Napping

/-- A class with two methods. One suspends, and there is a call behind its end that is not reached. -/
def napper : Class where
  name := { text := "Napper" }
  superclass := some .object
  interfaces := []
  flags := 0
  fields := []
  methods := [
    { name := .run
      descriptor := ⟨[.object .continuation], none⟩
      flags := 0
      annotations := []
      code := some {
        maxLocals := 2
        maxStack := 1
        instructions := #[.load .object 1, .invoke .virtual Interface.Continuation.suspend,
          .returnVoid, .load .object 1, .invoke .virtual Interface.Continuation.suspend, .returnVoid]
        handlers := []
        stackMap := none
        nextLabel := ⟨0⟩ } },
    { name := .reset
      descriptor := ⟨[], none⟩
      flags := 0
      annotations := []
      code := some {
        maxLocals := 1
        maxStack := 0
        instructions := #[.returnVoid]
        handlers := []
        stackMap := none
        nextLabel := ⟨0⟩ } }]
  attributes := []

/-- Its only point is the first one. -/
theorem points_eq : ∃ out s, suspendableClass .standard Library.hierarchy napper = .ok out ∧
    out.summaries = [s] ∧ s.points = 1 := by
  have hpoints : (suspendableClass .standard Library.hierarchy napper).toOption.map
      (·.summaries.map (·.points)) = some [1] := by
    unfold suspendableClass makeSuspendable MethodPlan.generate
    simp only [withMetadata_search]
    decide +kernel
  cases hout : suspendableClass .standard Library.hierarchy napper with
  | error e =>
    rw [hout] at hpoints
    cases hpoints
  | ok out =>
    rw [hout] at hpoints
    obtain ⟨s, hs, hone⟩ := List.map_eq_singleton_iff.mp (Option.some.inj hpoints)
    exact ⟨out, s, rfl, hs, hone⟩

end Napping

open Napping in
/-- States of the call that is not reached cannot be loaded, nor those with negative numbers. -/
theorem suspendableClass_dispatch_napper : ∃ out s, napper.isMarked = false ∧
    suspendableClass .standard Library.hierarchy napper = .ok out ∧
    ∃ x : ListedMethod .standard (napper.within Library.hierarchy) napper.name,
      out.summaries = [s] ∧ x.Dispatches ∧
      (∀ point, x.Accepts s.id s.version point ↔ point = 0) ∧
      ∀ point, isLoadable [out] ⟨"Napper", s.id, s.version, point⟩ = true ↔ point = 0 := by
  obtain ⟨out, s, hout, hs, hone⟩ := points_eq
  have hunmarked : napper.isMarked = false := by decide
  obtain ⟨listed, -, -, hlisted, hdispatches, hloadable⟩ := suspendableClass_dispatch hunmarked hout
  have hlists (point : Int32) : s.Lists s.id s.version point ↔ point = 0 := by
    have hzero : point = 0 ↔ point.toInt = 0 := Int32.toInt_inj.symm
    simp only [MethodSummary.Lists, hone, hzero, true_and]
    omega
  have hmem (x : ListedMethod .standard (napper.within Library.hierarchy) napper.name)
      (hx : some x ∈ listed) : x.made.summary = s := by
    have hsummary : x.made.summary ∈ [s] := by
      rw [← hs, hlisted]
      exact List.mem_filterMap.mpr ⟨some x, hx, rfl⟩
    exact List.mem_singleton.mp hsummary
  have haccepts (x : ListedMethod .standard (napper.within Library.hierarchy) napper.name)
      (hx : some x ∈ listed) (point : Int32) : x.Accepts s.id s.version point ↔ point = 0 := by
    rw [(hdispatches x hx).accepts_iff, hmem x hx, hlists]
  have hx : s ∈ listed.filterMap (·.map (·.made.summary)) := by
    rw [← hlisted, hs]
    exact List.mem_singleton_self s
  obtain ⟨_, hx, hsome⟩ := List.mem_filterMap.mp hx
  obtain ⟨x, rfl, -⟩ := Option.map_eq_some_iff.mp hsome
  refine ⟨out, s, hunmarked, hout, x, hs, hdispatches x hx, haccepts x hx, fun point => ?_⟩
  rw [hloadable, ← haccepts x hx]
  constructor
  · rintro ⟨-, y, hy, hyes⟩
    exact (haccepts x hx point).mpr ((haccepts y hy point).mp hyes)
  · intro hyes
    exact ⟨rfl, x, hx, hyes⟩

end Resumption
