import Resumption.Proofs.Instrument.Grafting
import Resumption.Proofs.Instrument.Labels
import Resumption.Proofs.Instrument.RoundTrip

/-!
# Places of instructions

Generated code keeps most instructions of the body as written, each somewhere in the piece that stands in
its place.

* **`MethodPlan.Keeps`** says which instructions are kept, and **`MethodPlan.offset`** how far into its
  piece an instruction is. **`MethodPlan.Proper`** is what generated code relies on without a check.
* **`Expansion.place`** is where an instruction is in all of generated code. Different instructions are at
  different places (`Expansion.place_injective`).
* **`Expansion.getElem?_position`** finds instructions of pieces, and `Expansion.position_unique` the piece
  that an instruction belongs to.
* **`Grafted`** is a method with its expansion, and `Grafted.bounds` what its analysis says of it.
* **`Graft.entering`** is the frame with which control comes to the place of an instruction from the
  instruction before it.
-/

namespace Resumption

namespace MethodPlan

variable (plan : MethodPlan)

/-- The frame before an instruction of the body as written, if control reaches it. -/
def frameAt (index : Nat) : Option Frame := plan.analysis.frames.getD index none

/-- How far into the code that stands in its place an instruction is, if it is kept: behind the stack
that is spilled and loaded again, or behind the object that is remembered. -/
def offset (index : Nat) : Nat :=
  match plan.points.find? (·.index = index) with
  | some p =>
    match p.kind with
    | .invoke => 2 * p.stackToSave.length + 1
    | .suspend => 0
  | none =>
    match plan.code.instructions[index]? with
    | some .monitorEnter | some .monitorExit => 2
    | _ => 0

/-- Is this instruction of the body as written also in generated code? Calls of `suspend` are not, and
line numbers may be left out. -/
structure Keeps (settings : Settings) (index : Nat) (i : Instruction) : Prop where
  /-- it is an instruction of the body -/
  written : plan.code.instructions[index]? = some i
  /-- no call of `suspend`, which is left out -/
  not_suspend : ∀ p ∈ plan.points, p.index = index → p.kind = .invoke
  /-- no line number, if these are left out -/
  not_lineNumber : ∀ n, i = .lineNumber n → settings.keepLineNumbers = true

variable {plan} {index : Nat} {i : Instruction}

theorem offset_of_point {p : SuspendPoint} (hp : plan.points.find? (·.index = index) = some p) :
    plan.offset index = if p.kind = .invoke then 2 * p.stackToSave.length + 1 else 0 := by
  rw [offset, hp]
  cases hkind : p.kind <;> simp only [hkind] <;> rfl

theorem offset_of_none (hnone : plan.points.find? (·.index = index) = none)
    (hi : plan.code.instructions[index]? = some i) :
    plan.offset index = if i = .monitorEnter ∨ i = .monitorExit then 2 else 0 := by
  rw [offset, hnone, hi]
  cases i <;> rfl

/-- Where there are monitor instructions, the code has monitors. -/
theorem hasMonitors_of (hi : plan.code.instructions[index]? = some i)
    (hmonitor : i = .monitorEnter ∨ i = .monitorExit) : plan.code.hasMonitors = true := by
  rw [Code.hasMonitors, Code.has, Array.any_eq_true']
  exact ⟨i, Array.mem_of_getElem? hi, by rcases hmonitor with rfl | rfl <;> rfl⟩

end MethodPlan

namespace Layout

variable {l : Layout} {first : Nat} {base : List Lease} {restores : List Label} {i : Instruction}
  {index : Nat} {piece : Piece}

/-- What becomes of an instruction that is no point. -/
theorem keep_cases (hmonitors : l.monitors.isSome = l.plan.code.hasMonitors)
    (hi : l.plan.code.instructions[index]? = some i) :
    (∃ v record, (i = .monitorEnter ∨ i = .monitorExit) ∧ l.monitors = some v ∧
      (record = Interface.LockState.enter ∨ record = Interface.LockState.exit) ∧
      l.keep i = recordMonitor v i record) ∨
    (¬ (i = .monitorEnter ∨ i = .monitorExit) ∧ (∃ n, i = .lineNumber n) ∧
      l.settings.keepLineNumbers = false ∧ l.keep i = []) ∨
    (¬ (i = .monitorEnter ∨ i = .monitorExit) ∧ l.keep i = [i]) := by
  by_cases hmonitor : i = .monitorEnter ∨ i = .monitorExit
  · obtain ⟨v, hv⟩ := Option.isSome_iff_exists.mp
      (hmonitors.trans (MethodPlan.hasMonitors_of hi hmonitor))
    refine .inl ⟨v, ?_⟩
    rcases hmonitor with rfl | rfl
    · exact ⟨_, .inl rfl, hv, .inl rfl, by rw [keep.eq_def, hv]⟩
    · exact ⟨_, .inr rfl, hv, .inr rfl, by rw [keep.eq_def, hv]⟩
  · refine .inr ?_
    rw [keep.eq_def]
    split
    · cases hsettings : l.settings.keepLineNumbers with
      | true => exact .inr ⟨hmonitor, rfl⟩
      | false => exact .inl ⟨hmonitor, ⟨_, rfl⟩, rfl, rfl⟩
    · exact absurd (.inl rfl) hmonitor
    · exact absurd (.inr rfl) hmonitor
    · exact .inr ⟨hmonitor, rfl⟩

theorem length_spillStack (leases : List (Option Lease)) : (spillStack leases).length = leases.length := by
  rw [spillStack, List.length_map, List.length_reverse]

/-- What stands before the call of a point: the stack is spilled and loaded again. -/
def beforeCall (leases : List (Option Lease)) (resume : Label) : List Instruction :=
  spillStack leases ++ [.label resume] ++ reloadStack leases

theorem length_beforeCall (leases : List (Option Lease)) (resume : Label) :
    (beforeCall leases resume).length = 2 * leases.length + 1 := by
  simp only [beforeCall, List.length_append, length_spillStack, reloadStack, List.length_map,
    List.length_singleton]
  omega

theorem invokeSequence_eq (p : SuspendPoint) (leases : List (Option Lease)) (resume after : Label)
    (exits : List Instruction) : l.invokeSequence p i leases resume after exits =
      beforeCall leases resume ++ i :: (l.unlessMode .saving after ++
        l.announce s!"saving continuation point {p.id}" ++ clearAfterCall i p.stackToSave ++
        l.save p leases exits ++ [.label after]) := by
  simp only [invokeSequence, beforeCall, List.append_assoc, List.cons_append, List.nil_append]

theorem getElem?_invokeSequence (p : SuspendPoint) (leases : List (Option Lease)) (resume after : Label)
    (exits : List Instruction) :
    (l.invokeSequence p i leases resume after exits)[2 * leases.length + 1]? = some i := by
  rw [invokeSequence_eq, ← length_beforeCall leases resume,
    List.getElem?_append_right (Nat.le_refl _), Nat.sub_self]
  rfl

/-- What is at the offset in a piece. -/
theorem IsPiece.at_offset (h : l.IsPiece first base restores (i, index) piece)
    (hmonitors : l.monitors.isSome = l.plan.code.hasMonitors)
    (hi : l.plan.code.instructions[index]? = some i) :
    (piece.inPlace = [] ∧ (∃ n, i = .lineNumber n) ∧ l.settings.keepLineNumbers = false) ∨
      l.plan.offset index < piece.inPlace.length ∧ (piece.inPlace[l.plan.offset index]? = some i ∨
        ∃ p ∈ l.plan.points, p.index = index ∧ p.kind = .suspend) := by
  have hthere : ∀ n, piece.inPlace[n]? = some i → n < piece.inPlace.length ∧
      (piece.inPlace[n]? = some i ∨ ∃ p ∈ l.plan.points, p.index = index ∧ p.kind = .suspend) :=
    fun n hn => ⟨(List.getElem?_eq_some_iff.mp hn).1, .inl hn⟩
  rcases h.cases with ⟨p, hp, ⟨q⟩⟩ | ⟨hnone, rfl⟩
  · have hindex : p.index = index := by simpa using List.find?_some hp
    have hsequence := q.inPlace_eq
    rw [MethodPlan.offset_of_point hp]
    cases hkind : p.kind with
    | invoke =>
      rw [IsSequence, hkind] at hsequence
      obtain ⟨after, hsequence⟩ := hsequence
      rw [if_pos rfl]
      refine .inr (hthere _ ?_)
      rw [hsequence, q.leased.length_eq]
      exact getElem?_invokeSequence ..
    | suspend =>
      rw [IsSequence, hkind] at hsequence
      rw [if_neg (by rintro ⟨⟩), hsequence]
      exact .inr ⟨Nat.zero_lt_succ _, .inr ⟨p, List.mem_of_find?_eq_some hp, hindex, hkind⟩⟩
  · rw [MethodPlan.offset_of_none hnone hi]
    rcases keep_cases hmonitors hi with ⟨v, record, hmonitor, -, -, hkeep⟩ |
      ⟨-, hline, hsettings, hkeep⟩ | ⟨hmonitor, hkeep⟩
    · rw [if_pos hmonitor]
      exact .inr (hthere _ (by rw [hkeep]; rfl))
    · exact .inl ⟨hkeep, hline, hsettings⟩
    · rw [if_neg hmonitor]
      exact .inr (hthere _ (by rw [hkeep]; rfl))

/-- **An instruction that is kept** is in its piece. -/
theorem IsPiece.kept (h : l.IsPiece first base restores (i, index) piece)
    (hmonitors : l.monitors.isSome = l.plan.code.hasMonitors) (hi : l.plan.Keeps l.settings index i) :
    piece.inPlace[l.plan.offset index]? = some i := by
  rcases h.at_offset hmonitors hi.written with ⟨-, ⟨n, hline⟩, hsettings⟩ | ⟨-, hat | ⟨p, hp, hindex, hkind⟩⟩
  · rw [hi.not_lineNumber n hline] at hsettings
    cases hsettings
  · exact hat
  · cases hkind.symm.trans (hi.not_suspend p hp hindex)

end Layout

/-! ## Positions -/

namespace Expansion

variable {e : Expansion} {index index' n : Nat} {piece : Piece}

theorem entry_le_position (index : Nat) : e.entry.length ≤ e.position index := Nat.le_add_right ..

/-- An instruction belongs to one piece. -/
theorem position_unique {piece' : Piece} {n' : Nat} (hpiece : e.pieces[index]? = some piece)
    (hpiece' : e.pieces[index']? = some piece') (hn : n < piece.inPlace.length)
    (hn' : n' < piece'.inPlace.length) (heq : e.position index + n = e.position index' + n') :
    index = index' := by
  have hsucc := position_succ hpiece
  have hsucc' := position_succ hpiece'
  rcases Nat.lt_trichotomy index index' with hlt | rfl | hlt
  · have hle : e.position (index + 1) ≤ e.position index' := position_mono hlt
    omega
  · rfl
  · have hle : e.position (index' + 1) ≤ e.position index := position_mono hlt
    omega

/-- A range from piece to piece covers a piece if it covers an instruction of it. -/
theorem covers_piece {start stop : Nat} (hpiece : e.pieces[index]? = some piece)
    (hn : n < piece.inPlace.length) (hstart : e.position start ≤ e.position index + n)
    (hstop : e.position index + n < e.position stop) : start ≤ index ∧ index < stop := by
  have hsucc := position_succ hpiece
  constructor
  · by_contra hlt
    have hle : e.position (index + 1) ≤ e.position start := position_mono (by omega)
    omega
  · by_contra hlt
    have hle : e.position stop ≤ e.position index := position_mono (by omega)
    omega

/-- Where the restore blocks begin. -/
def blocksStart (e : Expansion) : Nat := e.position e.pieces.length

theorem blocksStart_eq : e.blocksStart = e.entry.length + (e.pieces.flatMap (·.inPlace)).length := by
  rw [blocksStart, position, List.take_length]

/-- A piece ends before the restore blocks. -/
theorem position_lt_blocksStart (hpiece : e.pieces[index]? = some piece)
    (hn : n < piece.inPlace.length) : e.position index + n < e.blocksStart := by
  have hlt := (List.getElem?_eq_some_iff.mp hpiece).1
  have hsucc := position_succ hpiece
  have hle : e.position (index + 1) ≤ e.blocksStart := position_mono hlt
  omega

/-- An instruction of a piece in all of the code. -/
theorem getElem?_position {i : Instruction} (hpiece : e.pieces[index]? = some piece)
    (hi : piece.inPlace[n]? = some i) : e.code.instructions[e.position index + n]? = some i := by
  have hcode : e.code.instructions[e.position index + n]? = e.instructions[e.position index + n]? :=
    List.getElem?_toArray
  have hbefore : (e.entry ++ (e.pieces.take index).flatMap (·.inPlace)).length = e.position index := by
    rw [List.length_append, position]
  rw [hcode, instructions, flatMap_split hpiece, ← hbefore]
  simp only [List.append_assoc]
  rw [← List.append_assoc, List.getElem?_append_right (Nat.le_add_right ..), Nat.add_sub_cancel_left,
    List.getElem?_append_left (List.getElem?_eq_some_iff.mp hi).1, hi]

/-- Where an instruction of the body as written is in generated code. What is left out has a place past
its end. -/
def place (e : Expansion) (plan : MethodPlan) (index : Nat) : Nat :=
  match e.pieces[index]? with
  | some piece =>
    if piece.inPlace = [] then e.instructions.length + index
    else e.position index + plan.offset index
  | none => e.instructions.length + index

theorem place_of_piece {plan : MethodPlan} (hpiece : e.pieces[index]? = some piece)
    (hne : piece.inPlace ≠ []) : e.place plan index = e.position index + plan.offset index := by
  rw [place, hpiece]
  exact if_neg hne

theorem place_cases (plan : MethodPlan) (index : Nat) :
    e.place plan index = e.instructions.length + index ∨
      ∃ piece, e.pieces[index]? = some piece ∧ piece.inPlace ≠ [] ∧
        e.place plan index = e.position index + plan.offset index := by
  cases hpiece : e.pieces[index]? with
  | none => exact .inl (by rw [place, hpiece])
  | some piece =>
    by_cases hne : piece.inPlace = []
    · exact .inl (by rw [place, hpiece]; exact if_pos hne)
    · exact .inr ⟨piece, rfl, hne, place_of_piece hpiece hne⟩

/-- **Different instructions are at different places.** -/
theorem place_injective {plan : MethodPlan}
    (hlt : ∀ (index : Nat) piece, e.pieces[index]? = some piece → piece.inPlace ≠ [] →
      plan.offset index < piece.inPlace.length) : Function.Injective (e.place plan) := by
  have hend : ∀ {index : Nat} {piece}, e.pieces[index]? = some piece → piece.inPlace ≠ [] →
      e.position index + plan.offset index < e.instructions.length := by
    intro index piece hpiece hne
    have := position_lt_blocksStart hpiece (hlt index piece hpiece hne)
    rw [blocksStart_eq] at this
    simp only [instructions, List.length_append]
    omega
  intro index index' heq
  rcases e.place_cases plan index with hplace | ⟨piece, hpiece, hne, hplace⟩ <;>
    rcases e.place_cases plan index' with hplace' | ⟨piece', hpiece', hne', hplace'⟩
  · omega
  · have := hend hpiece' hne'
    omega
  · have := hend hpiece hne
    omega
  · exact position_unique hpiece hpiece' (hlt _ _ hpiece hne) (hlt _ _ hpiece' hne')
      (hplace.symm.trans (heq.trans hplace'))

end Expansion

/-! ## Methods in generated code -/

namespace MethodPlan

variable (plan : MethodPlan)

/-- What generated code relies on: at a point everything is initialized, calls of `suspend` are calls
on objects, and monitor instructions act on initialized references. -/
structure Proper : Prop where
  /-- no instance without its constructor is live at a point -/
  initialized : ∀ p ∈ plan.points, p.frame.hasUninitialized = false
  /-- `suspend` is called on an object -/
  instance_call : ∀ p ∈ plan.points, p.kind = .suspend → ∀ kind r,
    plan.code.instructions[p.index]? = some (.invoke kind r) → kind ≠ .static
  /-- monitors are entered and exited on objects that are initialized -/
  monitors : ∀ index f i, plan.frameAt index = some f → plan.code.instructions[index]? = some i →
    i = .monitorEnter ∨ i = .monitorExit →
    ∃ t rest, f.stack = t :: rest ∧ t.fits (.ofClass .object) = true

end MethodPlan

namespace Graft

variable (G : Graft)

/-- The plan for the method. -/
abbrev plan : MethodPlan := G.layout.plan

/-- The frame with which control comes to the place of an instruction from the one before it, if it
does. -/
def entering : Nat → Option Frame
  | 0 => (G.plan.frameAt 0).map G.frame
  | index + 1 =>
    if (G.plan.frameAt index).isSome && G.plan.code.instructions[index]?.any (·.fallsThrough) then
      (G.plan.frameAt (index + 1)).map G.frame
    else none

/-- Are frames awaited at the labels of the body as written? -/
def Knows (labels : Label → Option Frame) : Prop :=
  ∀ (index : Nat) l, G.plan.code.instructions[index]? = some (.label l) →
    labels l = (G.plan.frameAt index).map G.frame

variable {G} {index : Nat} {f : Frame}

theorem frame_of_entering {g : Frame} (h : G.entering index = some g) :
    ∃ f, G.plan.frameAt index = some f ∧ G.frame f = g := by
  cases index with
  | zero => exact Option.map_eq_some_iff.mp h
  | succ index =>
    rw [entering] at h
    split at h
    · exact Option.map_eq_some_iff.mp h
    · cases h

theorem entering_next {i : Instruction} (hf : (G.plan.frameAt index).isSome)
    (hi : G.plan.code.instructions[index]? = some i) (hfalls : i.fallsThrough = true) :
    G.entering (index + 1) = (G.plan.frameAt (index + 1)).map G.frame := by
  rw [entering, if_pos]
  rw [hf, hi, Option.any_some, hfalls]
  rfl

theorem entering_none (h : G.plan.frameAt index = none) : G.entering (index + 1) = none := by
  rw [entering, if_neg]
  rw [h]
  exact nofun

theorem entering_left {i : Instruction} (hi : G.plan.code.instructions[index]? = some i)
    (hfalls : i.fallsThrough = false) : G.entering (index + 1) = none := by
  rw [entering, if_neg]
  rw [hi, Option.any_some, hfalls, Bool.and_false]
  exact nofun

end Graft

/-- A method of a class, what it becomes, and where its frames are moved. -/
structure Grafted (h : Hierarchy) (owner : ClassName) (m : Method) (e : Expansion) (G : Graft) where
  /-- the code is laid out as the plan says -/
  shape : e.Shape G.layout G.first
  /-- the method is this one -/
  context_eq : G.context = ⟨owner, m.descriptor.result⟩
  /-- the plan is for this method -/
  method_eq : G.plan.method = m
  /-- variables of generated code begin behind those of the body -/
  first_eq : G.first = G.plan.analysis.maxLocals
  /-- there are variables for monitors if the body enters any -/
  monitors_eq : G.layout.monitors.isSome = G.plan.code.hasMonitors
  /-- the body was analyzed -/
  analysis_eq : analyzeCode h owner m.name m.descriptor m.isStatic G.plan.code = .ok G.plan.analysis
  /-- which calls may suspend -/
  policy : SuspendPolicy
  /-- the points are those calls -/
  points_eq : G.plan.points = suspendPoints policy G.plan.code G.plan.analysis
  /-- the plan can be verified -/
  proper : G.plan.Proper
  /-- instructions are put where the pieces say -/
  place_eq : ∀ (index : Nat) piece, e.pieces[index]? = some piece → piece.inPlace ≠ [] →
    G.place index = e.position index + G.plan.offset index

namespace Grafted

variable {h : Hierarchy} {owner : ClassName} {m : Method} {e : Expansion} {G : Graft}
  (on : Grafted h owner m e G) {index : Nat} {i : Instruction} {f : Frame} {piece : Piece}

include on

theorem bounds : G.plan.code.Bounds G.context G.first G.plan.frameAt ∧
    (Frame.entry owner m.name m.descriptor m.isStatic G.first).Within G.plan.frameAt G.first 0 := by
  obtain ⟨analyzed⟩ := analyzeCode_analyzed on.analysis_eq
  rw [on.first_eq, on.context_eq]
  exact analyzed.bounds

theorem wellFormed (hf : G.plan.frameAt index = some f) : f.WellFormed G.first := by
  rw [on.first_eq]
  exact analyzeCode_wellFormed on.analysis_eq hf

theorem reachable : (G.plan.frameAt index).isSome = true ↔ G.plan.code.Reachable index := by
  obtain ⟨analyzed⟩ := analyzeCode_analyzed on.analysis_eq
  exact analyzed.reachable.1 index

theorem result_eq : G.context.result = G.layout.plan.method.descriptor.result := by
  rw [on.context_eq, on.method_eq]

/-- An instruction that control reaches, and its effect. -/
theorem step (hf : G.plan.frameAt index = some f) (hi : G.plan.code.instructions[index]? = some i) :
    ∃ f', f.step G.context index i = .ok f' ∧
      (∀ l ∈ i.targets, ∃ target : Nat, G.plan.code.instructions[target]? = some (.label l) ∧
        f'.Within G.plan.frameAt G.first target) ∧
      (i.fallsThrough = true → f'.Within G.plan.frameAt G.first (index + 1)) ∧
      ∀ x target, G.plan.code.Edge index (some x) target →
        (f.handler x.caught).Within G.plan.frameAt G.first target ∧
        (f'.handler x.caught).Within G.plan.frameAt G.first target := by
  obtain ⟨i', f', hi', hstep, htargets, hnext, hhandlers⟩ := on.bounds.1.step hf
  obtain rfl := Option.some.inj (hi.symm.trans hi')
  exact ⟨f', hstep, htargets, hnext, hhandlers⟩

/-- Between labels, control comes from the instruction before. -/
theorem entering_of_frame (hf : G.plan.frameAt index = some f)
    (hi : ∀ l, G.plan.code.instructions[index]? ≠ some (.label l)) :
    G.entering index = some (G.frame f) := by
  have hreachable := on.reachable.mp (Option.isSome_iff_exists.mpr ⟨f, hf⟩)
  cases hreachable with
  | refl => rw [Graft.entering, hf, Option.map_some]
  | tail hbefore hedge =>
    obtain ⟨via, hedge⟩ := hedge
    cases hedge with
    | next hj hfalls =>
      rw [Graft.entering_next (on.reachable.mpr hbefore) hj hfalls, hf, Option.map_some]
    | jump _ _ htarget => exact absurd htarget (hi _)
    | handler _ _ _ hentry => exact absurd hentry (hi _)

/-- A point of the plan, with its call. -/
theorem point {p : SuspendPoint} (hp : G.plan.points.find? (·.index = index) = some p) :
    p ∈ G.plan.points ∧ p.index = index ∧ G.plan.frameAt index = some p.frame ∧
      ∃ kind r, G.plan.code.instructions[index]? = some (.invoke kind r) ∧
        (p.kind = .suspend → kind ≠ .static) ∧ p.kind = if r.isSuspend then .suspend else .invoke := by
  have hmem := List.mem_of_find?_eq_some hp
  have hindex : p.index = index := by simpa using List.find?_some hp
  subst hindex
  have hpoint := hmem
  rw [on.points_eq] at hpoint
  obtain ⟨r, kind, -, hcall, hframe, hkind, -⟩ := mem_suspendPoints hpoint
  exact ⟨hmem, rfl, hframe, kind, r, hcall, fun hsuspend =>
    on.proper.instance_call p hmem hsuspend kind r hcall, hkind⟩

/-- What stands in place of an instruction. -/
theorem piece_of (hi : G.plan.code.instructions[index]? = some i) :
    ∃ piece, e.pieces[index]? = some piece ∧
      G.layout.IsPiece G.first G.layout.shared on.shape.restores (i, index) piece := by
  refine forall₂_getElem? on.shape.pieces ?_
  rw [List.getElem?_zipIdx, Array.getElem?_toList, hi, Nat.zero_add]
  rfl

theorem pieces_length : e.pieces.length = G.plan.code.instructions.size := by
  rw [← on.shape.pieces.length_eq, List.length_zipIdx, Array.length_toList]

end Grafted

end Resumption
