import Resumption.Proofs.Instrument.Calls
import Resumption.Proofs.Machine.States
import Resumption.Snapshot.Loadable

/-!
# Keys of generated code

Suspendable code makes a method state in one way only, in `pushState`: the key of the point is pushed
as constants, and what comes in between moves values above it. So code that was written without a
call of `create` is disciplined once it is suspendable (`Generated.disciplined`), and the only keys
in it are those that the class lists (`suspendableClass_keyed`).
-/

namespace Resumption

variable {N : List (MethodRef × Native)} {K : FrameKey → Prop} {is js : List Instruction}

/-! ## Code that makes no method state -/

/-- Does the instruction make a method state? -/
def Instruction.createsState : Instruction → Bool
  | .invoke _ ref => ref = Interface.MethodState.create
  | _ => false

/-- The code makes no method state. -/
def CreatesNone (is : List Instruction) : Prop := ∀ i ∈ is, i.createsState = false

namespace CreatesNone

theorem not_mem (h : CreatesNone is) (kind : CallKind) :
    .invoke kind Interface.MethodState.create ∉ is := by
  intro hmem
  have hcreates := h _ hmem
  simp [Instruction.createsState] at hcreates

theorem disciplined (h : CreatesNone is) : Disciplined N K is := .of_none h.not_mem

/-- Blocks of fixed shape are checked by evaluation. -/
theorem of_all (h : is.all (!·.createsState) = true) : CreatesNone is := by
  intro i hi
  simpa using List.all_eq_true.mp h i hi

end CreatesNone

/-- All calls are others. -/
theorem createsNone_iff : CreatesNone is ↔ Calls (· ≠ Interface.MethodState.create) is := by
  refine forall₂_congr fun i _ => ?_
  cases i <;> simp [Instruction.createsState, Instruction.callee?]

theorem Calls.disciplined (h : Calls (· ≠ Interface.MethodState.create) is) : Disciplined N K is :=
  (createsNone_iff.mpr h).disciplined

/-- **Inlining** makes no method state that was not made before. -/
theorem Subroutine.inline_createsNone {c c' : Code} (hc : CreatesNone c.instructions.toList)
    (h : inline c = .ok c') : CreatesNone c'.instructions.toList :=
  createsNone_iff.mpr (inline_calls (createsNone_iff.mp hc) h)

/-! ## Values on the way to a method state -/

/-- Are the natives there that code with these settings calls? -/
structure Provided (settings : Settings) (N : List (MethodRef × Native)) : Prop where
  /-- the methods of the runtime classes -/
  standard : ∀ e ∈ Machine.standardNatives, N.lookup e.1 = some e.2
  /-- the methods of the allocator -/
  allocator : ∀ owner, settings.allocator = .custom owner →
    ∀ e ∈ Machine.allocatorNatives owner, N.lookup e.1 = some e.2

namespace Layout

variable {l : Layout} {first : Nat}

/-- However arrays are allocated, a length is taken and an array left. -/
theorem allocateArray_moves (hN : Provided l.settings N) (kind : ValueKind) :
    (l.allocateArray kind).moves? N = some (1, 1) := by
  unfold allocateArray
  cases hallocator : l.settings.allocator with
  | «instruction» => cases kind <;> rfl
  | custom owner =>
    have hmem : (Interface.allocator owner kind.elementType, Native.allocate kind.elementType) ∈
        Machine.allocatorNatives owner := by
      cases kind <;> simp [Machine.allocatorNatives, ValueKind.elementType]
    have hlookup := hN.allocator owner hallocator _ hmem
    have hparameters :
        (Interface.allocator owner kind.elementType).descriptor.parameters.length = 1 := by
      cases kind <;> rfl
    simp only [callStatic, Instruction.moves?_static, hlookup, hparameters]
    rfl

theorem height_saveElement (height : Nat) (kind : ValueKind) (value : SavedValue) (index : Nat) :
    heightAfter N (height + 1) (saveElement kind value index) = some (height + 1) := by
  simp [heightAfter, saveElement]

theorem height_saveElements (height : Nat) (kind : ValueKind) (values : List (SavedValue × Nat)) :
    heightAfter N (height + 1)
      (values.flatMap fun value => saveElement kind value.1 value.2) = some (height + 1) := by
  induction values with
  | nil => rfl
  | cons value values ih =>
    rw [List.flatMap_cons, heightAfter_append, height_saveElement, Option.bind_some]
    exact ih

/-- An array is one more value. -/
theorem height_buildArray (hN : Provided l.settings N) (height : Nat) (kind : ValueKind)
    (values : List SavedValue) :
    heightAfter N height (l.buildArray kind values) = some (height + 1) := by
  rw [buildArray]
  split
  · exact heightAfter_singleton rfl (Nat.zero_le _)
  · have hallocate : heightAfter N (height + 1) [l.allocateArray kind] = some (height + 1) :=
      heightAfter_singleton (allocateArray_moves hN kind) (Nat.le_add_left 1 height)
    rw [← List.singleton_append, List.append_assoc, heightAfter_append,
      heightAfter_singleton rfl (Nat.zero_le _), Option.bind_some, Nat.sub_zero,
      heightAfter_append, hallocate, Option.bind_some]
    exact height_saveElements height kind _

theorem height_buildArrays (hN : Provided l.settings N) (kinds : List ValueKind) (height : Nat)
    (values : List SavedValue) :
    heightAfter N height (kinds.flatMap (l.buildArray · values)) =
      some (height + kinds.length) := by
  induction kinds generalizing height with
  | nil => rfl
  | cons kind kinds ih =>
    rw [List.flatMap_cons, heightAfter_append, height_buildArray hN, Option.bind_some, ih,
      List.length_cons, Nat.add_right_comm, Nat.add_assoc]

/-- A data object is one more value. -/
theorem height_buildData (hN : Provided l.settings N) (height : Nat) (values : List SavedValue) :
    heightAfter N height (l.buildData values) = some (height + 1) := by
  have hlookup := hN.standard (Interface.Data.create, .createData) (by decide)
  have hmoves : (callStatic Interface.Data.create).moves? N = some (5, 1) := by
    simp only [callStatic, Instruction.moves?_static, hlookup]
    rfl
  rw [buildData, heightAfter_append, height_buildArrays hN, Option.bind_some]
  exact heightAfter_singleton hmoves (Nat.le_add_left 5 height)

/-! ## Blocks -/

/-- Other blocks make no method state. -/
theorem blocks_createNone (settings : Settings) :
    settings.Blocks (· ≠ Interface.MethodState.create) where
  plain := by decide
  rollback owner _ heq := absurd (congrArg MethodRef.name heq) (by
    exact (by decide : MemberName.rollback ≠ .create))

theorem calls_buildData (values : List SavedValue) :
    Calls (· ≠ Interface.MethodState.create) (l.buildData values) := by
  have hdata : Calls (· ≠ Interface.MethodState.create) [callStatic Interface.Data.create] :=
    createsNone_iff.mp (.of_all rfl)
  refine .append (.flatMap fun kind _ => ?_) hdata
  unfold buildArray
  split
  · exact .of_none rfl
  · refine .cons nofun (.cons (fun ref href heq => ?_) (.flatMap fun _ _ => .of_none rfl))
    have hname : (Interface.allocated kind.elementType).1 ≠ .create := by cases kind <;> decide
    unfold allocateArray at href
    split at href <;> cases href
    exact hname (congrArg MethodRef.name heq)

/-! ## The method state -/

/-- The key of the states that are made at a point. -/
def key (l : Layout) (p : SuspendPoint) : FrameKey :=
  { owner := l.plan.owner.text, id := l.plan.id, version := l.plan.version
    point := Int32.ofNat p.id }

/-- **Every method state has the key of its point.** -/
theorem disciplined_pushState (hN : Provided l.settings N) {p : SuspendPoint} (hkey : K (l.key p))
    (leases : List (Option Lease)) : Disciplined N K (l.pushState p leases) := by
  generalize hbetween : l.pushLockState :: (l.buildData p.savedLocals ++
    l.buildData (savedStack p.stackToSave leases)) = between
  have hpush : l.pushState p leases = [l.continuation.load] ++ (makesState (l.key p) between ++
      [callVirtual Interface.Continuation.pushNewMethodState]) := by
    subst hbetween
    simp only [pushState, makesState, key, FrameKey.pushes, makeState, callStatic, List.append_assoc,
      List.cons_append, List.nil_append]
  have hlock : l.pushLockState.moves? N = some (0, 1) ∧ l.pushLockState.callee? = none := by
    rw [pushLockState]
    cases l.monitors <;> exact ⟨rfl, rfl⟩
  have hheight : heightAfter N 0 between = some 3 := by
    rw [← hbetween, ← List.singleton_append, heightAfter_append,
      heightAfter_singleton hlock.1 (Nat.le_refl 0), Option.bind_some, heightAfter_append,
      height_buildData hN, Option.bind_some, height_buildData hN]
  have hnone : CreatesNone between := by
    rw [← hbetween, createsNone_iff]
    refine .cons (fun ref href => ?_) (.append (calls_buildData _) (calls_buildData _))
    rw [hlock.2] at href
    cases href
  rw [hpush]
  exact .append (CreatesNone.of_all rfl).disciplined
    (.append (.makes hkey hheight hnone.not_mem) (CreatesNone.of_all rfl).disciplined)

theorem disciplined_save (hN : Provided l.settings N) {p : SuspendPoint} (hkey : K (l.key p))
    (leases : List (Option Lease)) {exits : List Instruction}
    (hexits : IsMonitorLoop l exitLoop exits) : Disciplined N K (l.save p leases exits) := by
  have hcommit : Calls (· ≠ Interface.MethodState.create) l.commit := by
    rw [commit]
    cases l.settings.allocator with
    | «instruction» => exact .nil
    | custom owner =>
      have hname : MemberName.commit ≠ .create := by decide
      refine .singleton fun ref href heq => ?_
      cases href
      exact hname (congrArg MethodRef.name heq)
  exact .append (.append (.append (disciplined_pushState hN hkey leases) hcommit.disciplined)
    (calls_exits (blocks_createNone _) hexits).disciplined)
    (calls_placeholderReturn l.plan.method.descriptor.result).disciplined

/-- The code of a point. -/
theorem disciplined_point (hN : Provided l.settings N) {held : List Lease} {p : SuspendPoint}
    {i : Instruction} {here : Label} {piece : Piece} (q : PointCode l first held p i here piece)
    (hkey : K (l.key p)) (hi : i.createsState = false) :
    Disciplined N K piece.inPlace ∧ CreatesNone piece.block := by
  have hblocks := blocks_createNone l.settings
  refine ⟨?_, ?_⟩
  · have hsave := disciplined_save hN hkey q.leases q.exits_loop
    have hlabel : ∀ l : Label, Disciplined N K [.label l] := fun l => (Calls.of_none rfl).disciplined
    have hspill := (calls_spillStack q.leases).disciplined (N := N) (K := K)
    have hannounce := (calls_announce hblocks s!"saving continuation point {p.id}").disciplined
      (N := N) (K := K)
    have hinPlace := q.inPlace_eq
    rw [IsSequence] at hinPlace
    cases hkind : p.kind with
    | suspend =>
      rw [hkind] at hinPlace
      rw [hinPlace]
      have hpop : Disciplined N K [.stack .pop] := (Calls.of_none rfl).disciplined
      exact .append (.append (.append (.append (.append hpop hspill)
        (calls_setMode hblocks _).disciplined) hannounce) hsave) (hlabel _)
    | invoke =>
      rw [hkind] at hinPlace
      obtain ⟨after, hinPlace⟩ := hinPlace
      rw [hinPlace]
      have hcall : CreatesNone [i] := List.forall_mem_singleton.mpr hi
      exact .append (.append (.append (.append (.append (.append (.append (.append hspill
        (hlabel _)) (calls_reloadStack _).disciplined)
        hcall.disciplined) (calls_unlessMode hblocks _ _).disciplined) hannounce)
        (calls_clearAfterCall _ _).disciplined) hsave) (hlabel _)
  · rw [q.block_eq]
    exact createsNone_iff.mpr (calls_restoreBlock hblocks q.restores_locals q.restores_stack)

end Layout

/-- The code of a method, if the code as written makes no method state. -/
theorem Expansion.Shape.disciplined {l : Layout} {first : Nat} {e : Expansion} (s : e.Shape l first)
    (hN : Provided l.settings N) (hkey : ∀ p ∈ l.plan.points, K (l.key p))
    (hnone : CreatesNone l.plan.code.instructions.toList) : Disciplined N K e.instructions := by
  have hblocks := Layout.blocks_createNone l.settings
  have hpieces : ∀ piece ∈ e.pieces, Disciplined N K piece.inPlace ∧ CreatesNone piece.block := by
    intro piece hpiece
    obtain ⟨⟨i, index⟩, hi, his⟩ := (mem_of_forall₂ s.pieces).2 piece hpiece
    have hmem := List.fst_mem_of_mem_zipIdx hi
    rcases his.cases with ⟨p, hp, ⟨q⟩⟩ | ⟨-, rfl⟩
    · exact Layout.disciplined_point hN q (hkey p (List.mem_of_find?_eq_some hp)) (hnone i hmem)
    · exact ⟨(Layout.calls_keep hblocks (createsNone_iff.mp hnone i hmem)).disciplined,
        List.forall_mem_nil _⟩
  rw [Expansion.instructions, s.entry_eq, s.exit_eq]
  refine .append (.append (.append (Layout.calls_entry hblocks s.enters_loop).disciplined
    (.flatMap fun piece h => (hpieces piece h).1)) (.flatMap fun piece h => ?_))
    (Layout.calls_exit hblocks _ _ _).disciplined
  exact (hpieces piece h).2.disciplined

/-- **Suspendable methods.** Their method states have the keys of their points. -/
theorem Generated.disciplined {settings : Settings} {h : Hierarchy} {owner : ClassName}
    {method : Method} {made : SuspendableMethod} (g : Generated settings h owner method made)
    (hN : Provided settings N) (hnone : CreatesNone g.written.instructions.toList)
    (hkey : ∀ p ∈ g.plan.points, K ⟨owner.text, g.plan.id, g.plan.version, Int32.ofNat p.id⟩) :
    Disciplined N K g.code.instructions.toList := by
  obtain ⟨l, hsettings, hplan, -, -, ⟨s⟩⟩ := expansion_shape g.parts_eq
  obtain ⟨howner, -, -, -, -⟩ := planMethod_inv g.plan_eq
  obtain ⟨code, hinline, hcode⟩ := Except.bind_ok.mp g.plan_eq
  obtain ⟨analysis, -, hcode⟩ := Except.bind_ok.mp hcode
  have hwritten : CreatesNone g.plan.code.instructions.toList := by
    rw [← Except.ok.inj hcode]
    exact Subroutine.inline_createsNone hnone hinline
  rw [g.instructions_eq]
  refine s.disciplined (hsettings ▸ hN) (fun p hp => ?_) (hplan ▸ hwritten)
  rw [Layout.key, hplan, howner]
  exact hkey p (hplan ▸ hp)

/-! ## Classes -/

namespace Class

/-- No method of the class makes a method state. -/
def CreatesNone (c : Class) : Prop :=
  ∀ method ∈ c.methods, ∀ code, method.code = some code →
    Resumption.CreatesNone code.instructions.toList

theorem mem_summaries_mark (c : Class) {methods : List MethodSummary} {s : MethodSummary}
    (h : s ∈ methods) : s ∈ (c.mark methods).summaries := by
  have hattributes : ∀ attributes : List Attribute,
      s ∈ (markAttributes methods attributes).flatMap fun a => (summariesOf a).getD [] := by
    intro attributes
    induction attributes with
    | nil => simpa [markAttributes, summariesOf] using h
    | cons a attributes ih =>
      cases a with
      | instrumented existing =>
        rw [markAttributes, List.flatMap_cons]
        exact List.mem_append_left _ (List.mem_append_right _ h)
      | sourceFile name =>
        rw [markAttributes, List.flatMap_cons]
        · exact List.mem_append_right _ ih
        · exact nofun
      | unknown name data =>
        rw [markAttributes, List.flatMap_cons]
        · exact List.mem_append_right _ ih
        · exact nofun
  exact hattributes c.attributes

end Class

section

variable {settings : Settings} {h : Hierarchy} {c c' : Class}

/-- What a class consists of after it was made suspendable: each method is as it was, or was made
suspendable and is listed. -/
theorem suspendableClass_methods (hunmarked : c.isMarked = false)
    (hclass : suspendableClass settings h c = .ok c') :
    c'.name = c.name ∧ ∀ method ∈ c'.methods, method ∈ c.methods ∨
      ∃ written ∈ c.methods, ∃ made, method = made.method ∧ made.summary ∈ c'.summaries ∧
        makeSuspendable settings (c.within h) c.name written = .ok (some made) := by
  simp only [suspendableClass, hunmarked, Bool.false_eq_true, if_false] at hclass
  obtain ⟨made, hmade, hclass⟩ := Except.bind_ok.mp hclass
  split at hclass
  · cases hclass
    exact ⟨rfl, fun method hmethod => .inl hmethod⟩
  · cases hclass
    refine ⟨rfl, fun method hmethod => ?_⟩
    obtain ⟨⟨written, result⟩, hpair, rfl⟩ := List.mem_map.mp hmethod
    obtain ⟨hwritten, hresult⟩ := List.of_mem_zip hpair
    cases result with
    | none => exact .inl hwritten
    | some made' =>
      have hsummary : made'.summary ∈ made.filterMap fun made => made.map (·.summary) :=
        List.mem_filterMap.mpr ⟨some made', hresult, rfl⟩
      refine .inr ⟨written, hwritten, made', rfl, Class.mem_summaries_mark _ hsummary, ?_⟩
      exact (List.forall₂_iff_zip.mp (mapM_ok_iff.mp hmade)).2 hpair

/-- **Suspendable classes.** Every key that their code pushes can be loaded. -/
theorem suspendableClass_keyed {classes : List Class} (hN : Provided settings N)
    (hunmarked : c.isMarked = false) (hnone : c.CreatesNone)
    (hclass : suspendableClass settings h c = .ok c') (hloaded : c' ∈ classes)
    (hpoints : ∀ s ∈ c'.summaries, s.points ≤ 2 ^ 31) :
    ∀ method ∈ c'.methods,
      (Discipline.keyed N (isLoadable classes · = true)).code c' method := by
  intro method hmethod code hcode
  obtain ⟨hname, hmethods⟩ := suspendableClass_methods hunmarked hclass
  rcases hmethods method hmethod with hwritten | ⟨written, hwritten, made, rfl, hsummary, hmade⟩
  · exact (hnone method hwritten code hcode).disciplined
  · obtain ⟨g, -, -, hsame⟩ := makeSuspendable_inv hmade
    obtain rfl : g.code = code := Option.some.inj (g.code_eq.symm.trans hcode)
    refine g.disciplined hN (hnone written hwritten _ g.written_eq) fun p hp => ?_
    obtain ⟨-, -, -, -, hplanned⟩ := planMethod_inv g.plan_eq
    rw [hplanned] at hp
    obtain ⟨-, -, -, -, -, -, hget⟩ := mem_suspendPoints hp
    rw [← hplanned] at hget
    have hlt : p.id < g.plan.points.length := (List.getElem?_eq_some_iff.mp hget).1
    have hfew : g.plan.points.length ≤ 2 ^ 31 := by
      have hfew := hpoints _ hsummary
      rw [hsame] at hfew
      exact hfew
    have hint : (Int32.ofNat p.id).toInt = p.id := Int32.toInt_ofNat_of_lt (by omega)
    refine List.any_eq_true.mpr ⟨c', hloaded, ?_⟩
    simp only [hname, decide_true, Bool.true_and]
    refine List.any_eq_true.mpr ⟨made.summary, hsummary, ?_⟩
    rw [hsame]
    simp only [MethodSummary.accepts, hint, decide_true, Bool.true_and, Bool.and_eq_true,
      decide_eq_true_eq]
    omega

end

end Resumption
