import Resumption.Proofs.Instrument.Keys
import Resumption.Proofs.Machine.Settling

/-!
# Frames of generated code

In generated code with an allocator, a frame is saved by the code from the first allocation up to the
commit (`Layout.frameCode`). What stands on the stack there is known without the values that are
saved (`Outline`):

* **Arrays** of the allocator get every value of their kind, each at an index that they have, and all
  of them stand in the data of the frame in the end (`Layout.outline_buildData`).
* **The frame** is put together from that, pushed onto the continuation and committed
  (`Layout.outline_frameCode`). Nothing else in it pushes or commits (`Layout.frameCode_ends`).

So what generated code saves frames with is such code (`Settings.savesFrame_sound`).
-/

namespace Resumption

variable {N : List (MethodRef × Native)} {l : Layout} {slot : Nat} {o : Outline}

/-! ## What is known in a save sequence -/

namespace Layout

open Outline (afterAll?)

theorem after?_continuation (l : Layout) (o : Outline) :
    o.after? N l.continuation.slot l.continuation.load = some (o.push .own) :=
  congrArg (fun c => some (o.push c)) (if_pos rfl)

theorem outline_setMode (hN : Provided l.settings N) (mode : Mode) :
    afterAll? N l.continuation.slot o (l.setMode mode) = some ⟨true, o.top⟩ := by
  have hnative := hN.standard (Interface.Continuation.setMode, .setMode) (by decide)
  simp only [setMode, Outline.afterAll?_cons, after?_continuation, callVirtual,
    Outline.after?_invoke hnative, Option.bind_some]
  rfl

theorem outline_unlessMode (hN : Provided l.settings N) (mode : Mode) (otherwise : Label) :
    afterAll? N l.continuation.slot o (l.unlessMode mode otherwise) = some ⟨true, []⟩ := by
  have hnative := hN.standard (Interface.Continuation.getMode, .getMode) (by decide)
  simp only [unlessMode, Outline.afterAll?_cons, after?_continuation, callVirtual,
    Outline.after?_invoke hnative, Option.bind_some]
  rfl

theorem outline_announce (hN : Provided l.settings N) (what : String) {sure : Bool} :
    afterAll? N slot ⟨sure, []⟩ (l.announce what) = some ⟨sure, []⟩ := by
  have hnative := hN.standard (Interface.Print.println, .println) (by decide)
  rw [announce]
  cases l.settings.announcement with
  | silent => rfl
  | constant => rfl
  | printed =>
    simp only [Outline.afterAll?_cons, callVirtual, Outline.after?_invoke hnative]
    rfl

theorem outline_clearAfterCall (i : Instruction) (saved : List SlotType) {sure : Bool} :
    afterAll? N slot ⟨sure, []⟩ (clearAfterCall i saved) = some ⟨sure, []⟩ := by
  have hdrop : ∀ {α : Type} (width : α → Nat) (xs : List α),
      afterAll? N slot ⟨sure, []⟩ (xs.map fun x => dropTop (width x)) = some ⟨sure, []⟩ := by
    intro α width xs
    induction xs with
    | nil => rfl
    | cons x xs ih =>
      rw [List.map_cons, Outline.afterAll?_cons]
      have hfirst : Outline.after? N slot ⟨sure, []⟩ (dropTop (width x)) = some ⟨sure, []⟩ := by
        rw [dropTop]
        split <;> rfl
      rw [hfirst]
      exact ih
  unfold clearAfterCall
  split
  · rw [Outline.afterAll?_append, hdrop FieldType.width]
    exact hdrop SlotType.width _
  · rfl

/-! ## Arrays of saved values -/

theorem int32_ofNat {n : Nat} (h : n < 2 ^ 31) : 0 ≤ Int32.ofNat n ∧ (Int32.ofNat n).toInt = n := by
  have hint : (Int32.ofNat n).toInt = n := Int32.toInt_ofNat_of_lt h
  refine ⟨?_, hint⟩
  rw [Int32.le_iff_toInt_le, hint]
  exact Int.natCast_nonneg n

/-- A value goes into the array, which stays. -/
theorem outline_saveElement {length : Nat} (kind : ValueKind) (value : SavedValue) {index : Nat}
    (hindex : index < length) (hlength : length < 2 ^ 31) :
    afterAll? N slot (o.push (.array length)) (saveElement kind value index) =
      some (o.push (.array length)) := by
  obtain ⟨hnonneg, hint⟩ := int32_ofNat (hindex.trans hlength)
  have hin : 0 ≤ Int32.ofNat index ∧ (Int32.ofNat index).toInt < (length : Int) :=
    ⟨hnonneg, by rw [hint]; exact Int.ofNat_lt.mpr hindex⟩
  simp only [saveElement, Outline.afterAll?_cons, Outline.after?_dup, Outline.after?_pushInt,
    Outline.after?_load, Outline.after?_arrayStore hin, Option.bind_some, Outline.afterAll?_nil]

theorem outline_saveElements {length : Nat} (kind : ValueKind) {values : List (SavedValue × Nat)}
    (hvalues : ∀ x ∈ values, x.2 < length) (hlength : length < 2 ^ 31) :
    afterAll? N slot (o.push (.array length))
      (values.flatMap fun (value, index) => saveElement kind value index) =
      some (o.push (.array length)) := by
  induction values with
  | nil => rfl
  | cons x values ih =>
    rw [List.flatMap_cons, Outline.afterAll?_append,
      outline_saveElement kind x.1 (hvalues x (List.mem_cons_self ..)) hlength, Option.bind_some]
    exact ih fun y hy => hvalues y (List.mem_cons_of_mem _ hy)

/-- The method of the allocator that a kind of values takes. -/
theorem lookup_allocator (hN : Provided l.settings N) {owner : ClassName}
    (hallocator : l.settings.allocator = .custom owner) (kind : ValueKind) :
    N.lookup (Interface.allocator owner kind.elementType) = some (.allocate kind.elementType) := by
  refine hN.allocator owner hallocator
    (Interface.allocator owner kind.elementType, .allocate kind.elementType) ?_
  cases kind <;> simp [Machine.allocatorNatives, ValueKind.elementType]

theorem after?_allocateArray (hN : Provided l.settings N) {owner : ClassName}
    (hallocator : l.settings.allocator = .custom owner) (kind : ValueKind) {length : Nat}
    (hlength : length < 2 ^ 31) :
    (o.push (.int (Int32.ofNat length))).after? N slot (l.allocateArray kind) =
      some (o.push (.array length)) := by
  obtain ⟨hnonneg, hint⟩ := int32_ofNat hlength
  have hcount : (Interface.allocator owner kind.elementType).argumentCount .static = 1 := by
    cases kind <;> rfl
  have hcode : l.allocateArray kind = callStatic (Interface.allocator owner kind.elementType) := by
    simp only [allocateArray, hallocator]
  rw [hcode, callStatic, Outline.after?_invoke (lookup_allocator hN hallocator kind), hcount]
  simp [Outline.call?, Outline.push, Native.outline?, hnonneg, hint]

/-- One more value, an array or null. -/
theorem outline_buildArray (hN : Provided l.settings N) {owner : ClassName}
    (hallocator : l.settings.allocator = .custom owner) (kind : ValueKind) {values : List SavedValue}
    (hlength : values.length < 2 ^ 31) :
    ∃ c, afterAll? N slot o (l.buildArray kind values) = some (o.push c) := by
  have hfilter := List.length_filter_le (fun value : SavedValue => value.kind = kind) values
  rw [buildArray]
  split
  · exact ⟨.any, rfl⟩
  · rename_i ofKind _
    generalize values.filter (fun value : SavedValue => value.kind = kind) = ofKind at *
    refine ⟨.array ofKind.length, ?_⟩
    rw [Outline.afterAll?_append, Outline.afterAll?_cons, Outline.after?_pushInt, Option.bind_some,
      Outline.afterAll?_cons, after?_allocateArray hN hallocator kind (by omega), Option.bind_some,
      Outline.afterAll?_nil, Option.bind_some]
    exact outline_saveElements kind (fun x hx => List.snd_lt_of_mem_zipIdx hx) (by omega)

theorem outline_buildArrays (hN : Provided l.settings N) {owner : ClassName}
    (hallocator : l.settings.allocator = .custom owner) {values : List SavedValue}
    (hlength : values.length < 2 ^ 31) (kinds : List ValueKind) :
    ∃ arrays : List Content, arrays.length = kinds.length ∧
      afterAll? N slot o (kinds.flatMap (l.buildArray · values)) =
        some { o with top := arrays ++ o.top } := by
  induction kinds generalizing o with
  | nil => exact ⟨[], rfl, rfl⟩
  | cons kind kinds ih =>
    obtain ⟨c, hfirst⟩ := outline_buildArray (o := o) hN hallocator kind hlength
    obtain ⟨arrays, hcount, hothers⟩ := ih (o := o.push c)
    refine ⟨arrays ++ [c], by rw [List.length_append, hcount]; rfl, ?_⟩
    rw [List.flatMap_cons, Outline.afterAll?_append, hfirst, Option.bind_some, hothers,
      List.append_assoc]
    rfl

/-- One more value. -/
theorem outline_buildData (hN : Provided l.settings N) {owner : ClassName}
    (hallocator : l.settings.allocator = .custom owner) {values : List SavedValue}
    (hlength : values.length < 2 ^ 31) :
    afterAll? N slot o (l.buildData values) = some (o.push .any) := by
  have hnative := hN.standard (Interface.Data.create, .createData) (by decide)
  obtain ⟨arrays, hcount, harrays⟩ :=
    @outline_buildArrays N l slot o hN owner hallocator values hlength ValueKind.all
  obtain ⟨a, b, c, d, e, rfl⟩ : ∃ a b c d e, arrays = [a, b, c, d, e] := by
    match arrays, hcount with
    | [a, b, c, d, e], _ => exact ⟨a, b, c, d, e, rfl⟩
  rw [buildData, Outline.afterAll?_append, harrays, Option.bind_some, Outline.afterAll?_cons,
    callStatic, Outline.after?_invoke hnative]
  rfl

/-! ## The code for a frame -/

/-- Makes a method state, hands it over and tells the allocator. -/
def frameCode (l : Layout) (p : SuspendPoint) (leases : List (Option Lease)) : List Instruction :=
  l.pushState p leases ++ l.commit

/-- Can the values of the point be counted? -/
structure Countable (p : SuspendPoint) (leases : List (Option Lease)) : Prop where
  /-- not more variables than a length can say -/
  locals : p.savedLocals.length < 2 ^ 31
  /-- not more operands than a length can say -/
  stack : (savedStack p.stackToSave leases).length < 2 ^ 31

/-- A frame is handed over to the continuation in its variable. -/
theorem outline_frameCode (hN : Provided l.settings N) {owner : ClassName}
    (hallocator : l.settings.allocator = .custom owner) {p : SuspendPoint}
    {leases : List (Option Lease)} (h : Countable p leases) :
    afterAll? N l.continuation.slot ⟨true, []⟩ (l.frameCode p leases) = some ⟨true, []⟩ := by
  have hcreate := hN.standard (Interface.MethodState.create, .createState) (by decide)
  have hpush := hN.standard (Interface.Continuation.pushNewMethodState, .push) (by decide)
  have hcommit := hN.allocator owner hallocator (Interface.commit owner, .commit)
    (by simp [Machine.allocatorNatives])
  have hlock : ∀ o : Outline, ∃ c, o.after? N l.continuation.slot l.pushLockState =
      some (o.push c) := by
    intro o
    rw [pushLockState]
    cases l.monitors <;> exact ⟨_, rfl⟩
  obtain ⟨c, hlock⟩ := hlock ⟨true, [.int (Int32.ofNat p.id), .int l.plan.version, .int l.plan.id,
    .text, .own]⟩
  have hfirst : afterAll? N l.continuation.slot ⟨true, []⟩ [l.continuation.load,
      .pushConstant (.string l.plan.owner.text), .pushInt l.plan.id, .pushInt l.plan.version,
      .pushInt (Int32.ofNat p.id), l.pushLockState] =
      some ⟨true, [c, .int (Int32.ofNat p.id), .int l.plan.version, .int l.plan.id, .text, .own]⟩ := by
    simp only [Outline.afterAll?_cons, after?_continuation, Outline.after?_text,
      Outline.after?_pushInt, Option.bind_some, Outline.afterAll?_nil]
    rw [Outline.push, Outline.push, Outline.push, Outline.push, Outline.push, hlock]
    rfl
  rw [frameCode, pushState, commit, hallocator]
  simp only [Outline.afterAll?_append, hfirst, Option.bind_some,
    outline_buildData hN hallocator h.locals, outline_buildData hN hallocator h.stack,
    Outline.afterAll?_cons, callStatic, callVirtual, Outline.after?_invoke hcreate,
    Outline.after?_invoke hpush, Outline.after?_invoke hcommit, Outline.afterAll?_nil]
  rfl

end Layout

/-- Instructions that build a method state. -/
def Instruction.Builds (N : List (MethodRef × Native)) (i : Instruction) : Prop :=
  i.saves N = true ∧ i.native? N ≠ some .push ∧ i.native? N ≠ some .commit

theorem Instruction.Builds.quiet {i : Instruction} (hsaves : i.saves N = true)
    (hnative : i.native? N = none) : i.Builds N := by
  rw [Builds, hnative]
  exact ⟨hsaves, Option.some_ne_none _ ∘ Eq.symm, Option.some_ne_none _ ∘ Eq.symm⟩

theorem Instruction.Builds.call {kind : CallKind} {ref : MethodRef} {native : Native}
    (h : N.lookup ref = some native) (hsaves : native.saves = true) (hpush : native ≠ .push)
    (hcommit : native ≠ .commit) : (Instruction.invoke kind ref).Builds N := by
  refine ⟨?_, ?_, ?_⟩
  · rw [Instruction.saves_invoke, h, Option.any_some, hsaves]
  · rw [Instruction.native?_invoke, h]
    exact fun heq => hpush (Option.some.inj heq)
  · rw [Instruction.native?_invoke, h]
    exact fun heq => hcommit (Option.some.inj heq)

namespace Layout

theorem builds_buildData (hN : Provided l.settings N) {owner : ClassName}
    (hallocator : l.settings.allocator = .custom owner) (values : List SavedValue) :
    ∀ i ∈ l.buildData values, i.Builds N := by
  have hnative := hN.standard (Interface.Data.create, .createData) (by decide)
  have harray : ∀ kind, ∀ i ∈ l.buildArray kind values, i.Builds N := by
    intro kind
    rw [buildArray]
    split
    · exact List.forall_mem_singleton.mpr (.quiet rfl rfl)
    · refine List.forall_mem_append.mpr ⟨List.forall_mem_cons.mpr ⟨.quiet rfl rfl,
        List.forall_mem_singleton.mpr ?_⟩, fun i hi => ?_⟩
      · simp only [allocateArray, hallocator]
        exact .call (lookup_allocator hN hallocator kind) rfl (fun h => by cases h)
          (fun h => by cases h)
      · obtain ⟨x, -, hi⟩ := List.mem_flatMap.mp hi
        simp only [saveElement, List.mem_cons, List.not_mem_nil, or_false] at hi
        rcases hi with rfl | rfl | rfl | rfl <;> exact .quiet rfl rfl
  refine List.forall_mem_append.mpr ⟨fun i hi => ?_, List.forall_mem_singleton.mpr ?_⟩
  · obtain ⟨kind, -, hi⟩ := List.mem_flatMap.mp hi
    exact harray kind i hi
  · exact .call hnative rfl (by decide) (by decide)

/-- All but the last two instructions build the method state. -/
theorem frameCode_ends (hN : Provided l.settings N) {owner : ClassName}
    (hallocator : l.settings.allocator = .custom owner) (p : SuspendPoint)
    (leases : List (Option Lease)) :
    ∃ front, l.frameCode p leases = front ++ [callVirtual Interface.Continuation.pushNewMethodState,
      callStatic (Interface.commit owner)] ∧ ∀ i ∈ front, i.Builds N := by
  have hcreate := hN.standard (Interface.MethodState.create, .createState) (by decide)
  refine ⟨[l.continuation.load, .pushConstant (.string l.plan.owner.text), .pushInt l.plan.id,
      .pushInt l.plan.version, .pushInt (Int32.ofNat p.id), l.pushLockState] ++
    l.buildData p.savedLocals ++ l.buildData (savedStack p.stackToSave leases) ++
    [callStatic Interface.MethodState.create], ?_, ?_⟩
  · simp only [frameCode, pushState, commit, hallocator, List.append_assoc, List.cons_append,
      List.nil_append]
  · have hlock : l.pushLockState.Builds N := by
      rw [pushLockState]
      cases l.monitors <;> exact .quiet rfl rfl
    have hplain : ∀ i ∈ [l.continuation.load, .pushConstant (.string l.plan.owner.text),
        .pushInt l.plan.id, .pushInt l.plan.version, .pushInt (Int32.ofNat p.id),
        l.pushLockState], i.Builds N := by
      simp only [List.mem_cons, List.not_mem_nil, or_false]
      rintro i (rfl | rfl | rfl | rfl | rfl | rfl)
      all_goals first | exact hlock | exact .quiet rfl rfl
    exact List.forall_mem_append.mpr ⟨List.forall_mem_append.mpr ⟨List.forall_mem_append.mpr
      ⟨hplain, builds_buildData hN hallocator _⟩, builds_buildData hN hallocator _⟩,
      List.forall_mem_singleton.mpr (.call hcreate rfl (by decide) (by decide))⟩

end Layout

/-- **The code that saves a frame**, of all methods with these settings: what leads to it makes sure
that there is a continuation. -/
inductive Settings.SavesFrame (settings : Settings) : SaveCodes
  /-- in place of a call of `suspend` -/
  | suspend {l : Layout} {p : SuspendPoint} {leases : List (Option Lease)}
      (hsettings : l.settings = settings) (hvalues : Layout.Countable p leases) (what : String) :
      SavesFrame settings l.continuation.slot (l.setMode .saving ++ l.announce what)
        (l.frameCode p leases)
  /-- after a call that may have suspended -/
  | invoke {l : Layout} {p : SuspendPoint} {leases : List (Option Lease)}
      (hsettings : l.settings = settings) (hvalues : Layout.Countable p leases) (what : String)
      (after : Label) (i : Instruction) (saved : List SlotType) :
      SavesFrame settings l.continuation.slot
        (l.unlessMode .saving after ++ l.announce what ++ clearAfterCall i saved)
        (l.frameCode p leases)

theorem Layout.saveCode (hN : Provided l.settings N) {owner : ClassName}
    (hallocator : l.settings.allocator = .custom owner) {p : SuspendPoint}
    {leases : List (Option Lease)} (hvalues : Countable p leases) {lead : List Instruction}
    (hlead : Outline.afterAll? N l.continuation.slot ⟨false, []⟩ lead = some ⟨true, []⟩) :
    SaveCode N l.continuation.slot lead (l.frameCode p leases) := by
  have hpush := hN.standard (Interface.Continuation.pushNewMethodState, .push) (by decide)
  have hcommit := hN.allocator owner hallocator (Interface.commit owner, .commit)
    (by simp [Machine.allocatorNatives])
  obtain ⟨front, heq, hfront⟩ := frameCode_ends hN hallocator p leases
  refine ⟨?_, fun i hi => ?_, front, _, _, heq, hpush, hcommit, fun i hi => (hfront i hi).2⟩
  · rw [Outline.afterAll?_append, hlead, Option.bind_some, outline_frameCode hN hallocator hvalues]
    rfl
  · rw [heq] at hi
    rcases List.mem_append.mp hi with hi | hi
    · exact (hfront i hi).1
    · simp only [List.mem_cons, List.not_mem_nil, or_false] at hi
      rcases hi with rfl | rfl
      · rw [callVirtual, Instruction.saves_invoke, hpush]
        rfl
      · rw [callStatic, Instruction.saves_invoke, hcommit]
        rfl

theorem Settings.savesFrame_sound {settings : Settings} (hN : Provided settings N) {owner : ClassName}
    (hallocator : settings.allocator = .custom owner) : (settings.SavesFrame).Sound N := by
  intro slot lead frame hcode
  cases hcode with
  | suspend hsettings hvalues what =>
    subst hsettings
    refine Layout.saveCode hN hallocator hvalues ?_
    rw [Outline.afterAll?_append, Layout.outline_setMode hN, Option.bind_some]
    exact Layout.outline_announce hN what
  | invoke hsettings hvalues what after i saved =>
    subst hsettings
    refine Layout.saveCode hN hallocator hvalues ?_
    rw [Outline.afterAll?_append, Outline.afterAll?_append, Layout.outline_unlessMode hN,
      Option.bind_some, Layout.outline_announce hN, Option.bind_some]
    exact Layout.outline_clearAfterCall i saved

end Resumption
