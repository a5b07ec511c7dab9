import Resumption.Proofs.Instrument.Blocks
import Resumption.Proofs.Instrument.Savable
import Resumption.Proofs.Instrument.Shape

/-!
# Types of the blocks that load and restore

How control goes through what comes before and after the body as written: a suspendable method takes
its continuation, asks it for its mode, and while loading goes to the block of the point at which it
was suspended. If that fails the continuation is reset. A restore block starts out with nothing but the
state that is loaded, and puts one value after the other back where it was. Locals of the method are
variables in use here, like all others.

* **`Layout.fits`**: all variables that can be in use at a time are apart.
* **`Site.goes_begin`** and **`Site.goes_entry`** are what comes before the body, with
  `Site.goes_enterLoop` for the monitors of the state that is loaded; `Site.goes_exit` is what comes after
  it.
* **`SavedValue.holding`** is the variable of a saved value, with the type it has again once restored.
* **`Site.goes_restoreData`** restores all saved values of the locals, or of the stack.
* **`SuspendPoint.holdings`** are all variables of a point, and `PointCode.fits` says that they are
  apart from each other.
* **`Site.goes_restoreBlock`** restores them.
-/

namespace Resumption

/-! ## Loading -/

namespace Layout

/-- What the state that is loaded is in. -/
def heldState (l : Layout) : Holding := l.state.holds (.ofClass .methodState)

/-- Everything that can be in the variables that all blocks share. -/
def pool (l : Layout) : Holdings :=
  (l.monitors.map fun m => [m.heldIndex, m.heldArray]).getD [] ++ l.heldState :: l.lasting

variable {l : Layout}

theorem lasting_pool : l.lasting ⊆ l.pool :=
  fun _ hx => List.mem_append_right _ (List.mem_cons_of_mem _ hx)

theorem state_pool : l.heldState :: l.lasting ⊆ l.pool := List.subset_append_right ..

theorem looping_pool {m : MonitorVariables} (hm : l.monitors = some m) {held : Holdings}
    (hsub : held ⊆ l.heldState :: l.lasting) : held.looping m ⊆ l.pool := by
  rw [pool, hm]
  exact List.cons_subset_cons _ (List.cons_subset_cons _ hsub)

theorem pool_kinds {first : Nat} (hready : l.Ready first) :
    ∀ x ∈ l.pool, Frame.holdsKind x.kind x.type = true := by
  obtain ⟨-, -, hcontinuation, hstate, -, hlockState, harray, hindex, -⟩ := hready
  intro x hx
  rw [pool, lasting] at hx
  cases hm : l.monitors with
  | none =>
    simp only [hm, Option.map_none, Option.getD_none, Option.toList_none, List.nil_append,
      List.mem_cons, List.not_mem_nil, or_false] at hx
    rcases hx with rfl | rfl
    · rw [heldState, Lease.holds, hstate]
      rfl
    · rw [heldContinuation, Lease.holds, hcontinuation]
      rfl
  | some m =>
    simp only [hm, Option.map_some, Option.getD_some, Option.toList_some, List.mem_append,
      List.mem_cons, List.not_mem_nil, or_false] at hx
    rcases hx with (rfl | rfl) | rfl | rfl | rfl
    · rw [MonitorVariables.heldIndex, Lease.holds, hindex m hm]
      rfl
    · rw [MonitorVariables.heldArray, Lease.holds, harray m hm]
      rfl
    · rw [heldState, Lease.holds, hstate]
      rfl
    · rw [heldContinuation, Lease.holds, hcontinuation]
      rfl
    · rw [Lease.holds, hlockState m hm]
      rfl

theorem pool_spans : (l.pool.map Holding.span).Subperm (l.shared.map Lease.span) := by
  rw [pool, lasting, shared]
  cases l.monitors with
  | none => exact List.Perm.subperm (List.Perm.refl _)
  | some m =>
    refine List.subperm_iff_count.mpr fun span => ?_
    simp only [Option.map_some, Option.getD_some, Option.toList_some, List.cons_append,
      List.nil_append, List.map_cons, List.map_nil, List.count_cons, List.count_nil,
      MonitorVariables.heldIndex, MonitorVariables.heldArray, heldState, heldContinuation,
      Lease.holds, Holding.span, Lease.span]
    omega

end Layout

theorem Holdings.spans_spilled {types : List SlotType} {leases : List (Option Lease)}
    (h : List.Forall₂ Leased types leases) :
    (Holdings.spilled types leases).map Holding.span = (leases.filterMap id).map Lease.span := by
  induction h with
  | nil => rfl
  | @cons t lease types leases _ _ ih =>
    cases lease with
    | none => exact ih
    | some lease => exact congrArg (lease.span :: ·) ih

theorem Holdings.spilled_kinds {types : List SlotType} {leases : List (Option Lease)}
    (h : List.Forall₂ Leased types leases) :
    ∀ x ∈ Holdings.spilled types leases, Frame.holdsKind x.kind x.type = true := by
  induction h with
  | nil => nofun
  | @cons t lease types leases hlease _ ih =>
    cases lease with
    | none => exact ih
    | some lease => exact List.forall_mem_cons.mpr ⟨holdsKind_of_ofSlot? hlease.symm, ih⟩

/-- **Variables in use are apart**: those that all blocks share, those that the stack is spilled into,
and those that are leased on top of them. -/
theorem Layout.fits {l : Layout} {first : Nat} (hready : l.Ready first) {extra : List Lease}
    {xs : Holdings} {types : List SlotType} {leases : List (Option Lease)}
    (h : Separate first (extra ++ (leases.filterMap id ++ l.shared)))
    (hleased : List.Forall₂ Leased types leases) (hxs : xs.map Holding.span = extra.map Lease.span)
    (hkinds : ∀ x ∈ xs, Frame.holdsKind x.kind x.type = true) :
    (xs ++ (.spilled types leases ++ l.pool)).Fits first 0xFFFF := by
  refine Holdings.fits_of_separate h ?_ fun x hx => ?_
  · simp only [List.map_append, hxs, Holdings.spans_spilled hleased]
    exact (List.Subperm.refl _).append ((List.Subperm.refl _).append pool_spans)
  · rcases List.mem_append.mp hx with hx | hx
    · exact hkinds x hx
    · rcases List.mem_append.mp hx with hx | hx
      · exact Holdings.spilled_kinds hleased x hx
      · exact pool_kinds hready x hx

namespace Site

variable {s : Site} {l : Layout} {m : MonitorVariables} {held : Holdings} {stack : List SlotType}

/-- **Entering the monitors** of the state that is loaded. -/
theorem goes_enterLoop (room : s.Room held) (hlasting : l.lasting ⊆ held)
    (hstate : l.heldState ∈ held) {code : List Instruction} (h : s.Loops l l.enterLoop held code) :
    s.Goes (some (s.frame held [])) code (some (s.frame held [])) := by
  rw [Loops] at h
  split at h
  · rename_i m hm
    obtain ⟨start, stop, rfl, hstart, hstop, hfits⟩ := h
    obtain ⟨harrayFits, room₁, room₂⟩ := room.looping hfits
    have hlockState := hlasting (l.lockState_lasting hm)
    have hindex : m.heldIndex ∈ held.looping m := List.mem_cons_self ..
    have harray : m.heldArray ∈ held.looping m := List.mem_cons_of_mem _ (List.mem_cons_self ..)
    have hempty : ∀ t ∈ ([] : List SlotType), t ≠ .top := List.forall_mem_nil _
    refine .cons (.load room hstate) <| .cons (.plain room ⟨rfl, rfl, rfl⟩ fun _ => rfl) <|
      .cons (.replace room hlockState hempty) <| .cons (.load room hlockState) <|
      .cons (.plain room ⟨rfl, rfl, rfl⟩ fun _ => rfl) <| .cons (.hold room harrayFits hempty) <|
      .cons (.plain room₁ ⟨rfl, rfl, rfl⟩ fun _ => rfl) <| .cons (.hold room₁ hfits hempty) <|
      .cons (.pass room₂ hstart hempty) <| .cons (.load room₂ hindex) <|
      .cons (.load room₂ harray) <| .cons (.plain room₂ ⟨rfl, rfl, rfl⟩ fun _ => rfl) <|
      .cons (.branch room₂ rfl rfl (fun _ => rfl) ?_) <| .cons (.load room₂ harray) <|
      .cons (.load room₂ hindex) <| .cons (.plain room₂ ⟨rfl, rfl, rfl⟩ fun _ => rfl) <|
      .cons (.plain room₂ ⟨rfl, rfl, rfl⟩ fun _ => rfl) <|
      .cons (goes_increment room₂ hindex rfl _) <|
      .cons (.goto room₂ (room₂.awaited hstart hempty)) <|
      .cons (.arrive room₂ hstop fun _ h => by cases h) (.forget room₂ ?_ hempty)
    · exact fun _ ho => List.mem_singleton.mp ho ▸ room₂.awaited hstop hempty
    · exact fun x hx => List.mem_cons_of_mem _ (List.mem_cons_of_mem _ hx)
  · subst h
    exact .nil

theorem goes_unlessState (room : s.Room held) (hstate : l.heldState ∈ held) {getter : MethodRef}
    (hgetter : getter = Interface.MethodState.getMethodId ∨
      getter = Interface.MethodState.getMethodVersion) (expected : Int32) {otherwise : Label}
    (hotherwise : (s.frame held stack).Awaited s.labels s.size otherwise) :
    s.Goes (some (s.frame held stack)) (l.unlessState getter expected otherwise)
      (some (s.frame held stack)) := by
  have hcall : ∀ index, (s.frame held (.ofClass .methodState :: stack)).step s.context index
      (callVirtual getter) = .ok (s.frame held (.integer :: stack)) := by
    intro index
    rcases hgetter with rfl | rfl <;> rfl
  exact .cons (.load room hstate) <| .cons (.plain room ⟨rfl, rfl, rfl⟩ hcall) <|
    .cons (.plain room ⟨rfl, rfl, rfl⟩ fun _ => rfl) <|
    .branch room rfl rfl (fun _ => rfl) fun _ ho => List.mem_singleton.mp ho ▸ hotherwise

/-! ## The two ends of the method -/

/-- What comes before the first label: the continuation is put into its variable, and a lock state is
made. -/
theorem goes_begin (room : s.Room []) (hslot : l.plan.continuationSlot < s.first)
    (hbase : s.base l.plan.continuationSlot = .ofClass .continuation)
    (hfits : l.lasting.Fits s.first s.size) :
    s.Goes (some (s.frame [] []))
      (l.announce "entry" ++
        [.load .object l.plan.continuationSlot, l.continuation.store] ++ l.createLockState)
      (some (s.frame l.lasting [])) := by
  have hempty : ∀ t ∈ ([] : List SlotType), t ≠ .top := List.forall_mem_nil _
  have hcontinuation : Holdings.Fits s.first s.size [l.heldContinuation] :=
    hfits.subset (by simpa using l.continuation_lasting)
  have room₁ : s.Room [l.heldContinuation] := room.cons hcontinuation
  have htype : s.types [] l.plan.continuationSlot = .ofClass .continuation :=
    (SlotTypes.beside_of_lt hslot).trans hbase
  have hload : ∀ index, (s.frame [] []).step s.context index
      (.load .object l.plan.continuationSlot) =
        .ok (s.frame [] [.ofClass .continuation]) := by
    intro index
    have hload : (s.frame [] []).step s.context index (.load .object l.plan.continuationSlot) =
        .ok (s.frame [] [s.types [] l.plan.continuationSlot]) :=
      Frame.of_load (Nat.lt_of_lt_of_le hslot room.first_le) (by rw [htype]; rfl)
    rw [htype] at hload
    exact hload
  refine .append (.append (goes_announce room _) (.cons (.plain room ⟨rfl, rfl, rfl⟩ hload)
    (.hold (x := l.heldContinuation) room hcontinuation hempty))) ?_
  rw [Layout.createLockState]
  split
  · rename_i m hm
    have hlasting : l.lasting = [l.heldContinuation, m.lockState.holds (.ofClass .lockState)] := by
      rw [Layout.lasting, hm]
      rfl
    have hfits' : Holdings.Fits s.first s.size
        [m.lockState.holds (.ofClass .lockState), l.heldContinuation] :=
      hfits.subset (by rw [hlasting]; simp)
    refine .cons (.plain room₁ ⟨rfl, rfl, rfl⟩ fun _ => rfl) <|
      .cons (.hold (x := m.lockState.holds (.ofClass .lockState)) room₁ hfits' hempty)
        (.forget (room₁.cons hfits') (by rw [hlasting]; simp) hempty)
  · rename_i hm
    rw [Layout.lasting, hm]
    exact .nil

/-- What comes after it, before the body as written. -/
theorem goes_entry (room : s.Room l.lasting)
    (hfits : Holdings.Fits s.first s.size (l.heldState :: l.lasting))
    {bodyStart written invalid : Label} {restores : List Label} {enters : List Instruction}
    (hbodyStart : s.labels bodyStart = some (s.frame l.lasting []))
    (hinvalid : s.labels invalid = some (s.frame l.lasting []))
    (hwritten : (s.frame l.lasting []).Awaited s.labels s.size written)
    (hrestores : ∀ restore ∈ restores,
      (s.frame (l.heldState :: l.lasting) []).Awaited s.labels s.size restore)
    (henters : s.Loops l l.enterLoop (l.heldState :: l.lasting) enters) :
    s.Goes (some (s.frame l.lasting []))
      ([.label bodyStart] ++ l.unlessMode .loading written ++ l.announce "loading" ++
        l.loadState invalid enters ++ l.toPoint invalid restores ++
        [.label invalid, callStatic Interface.Continuation.invalidContinuationPoint, .throw])
      none := by
  have hempty : ∀ t ∈ ([] : List SlotType), t ≠ .top := List.forall_mem_nil _
  have room₁ : s.Room (l.heldState :: l.lasting) := room.cons hfits
  have hsub : l.lasting ⊆ l.heldState :: l.lasting := List.subset_cons_self ..
  have hstate : l.heldState ∈ l.heldState :: l.lasting := List.mem_cons_self ..
  have hfails : (s.frame (l.heldState :: l.lasting) []).Awaited s.labels s.size invalid :=
    ⟨_, hinvalid, room₁.frame_suits hsub hempty⟩
  have hload : s.Goes (some (s.frame l.lasting [])) (l.loadState invalid enters)
      (some (s.frame (l.heldState :: l.lasting) [])) :=
    .append (.append (.append (.cons (.load room l.continuation_lasting) <|
      .cons (.plain room ⟨rfl, rfl, rfl⟩ fun _ => rfl) (.hold (x := l.heldState) room hfits hempty))
      (goes_unlessState room₁ hstate (.inl rfl) _ hfails))
      (goes_unlessState room₁ hstate (.inr rfl) _ hfails))
      (goes_enterLoop room₁ hsub hstate henters)
  have htoPoint : s.Goes (some (s.frame (l.heldState :: l.lasting) [])) (l.toPoint invalid restores)
      none := by
    refine .cons (.load room₁ hstate) <| .cons (.plain room₁ ⟨rfl, rfl, rfl⟩ fun _ => rfl) <|
      .leave room₁ rfl rfl (fun _ => rfl) fun target htarget => ?_
    rcases List.mem_append.mp htarget with htarget | htarget
    · exact hrestores target htarget
    · exact List.mem_singleton.mp htarget ▸ hfails
  exact .append (.append (.append (.append (.append (.pass room hbodyStart hempty)
    (goes_unlessMode room l.continuation_lasting _ hwritten)) (goes_announce room _)) hload) htoPoint)
    (.cons (.arrive room hinvalid nofun) <| .cons (.plain room ⟨rfl, rfl, rfl⟩ fun _ => rfl) <|
      .leave room rfl rfl (fun _ => rfl) nofun)

/-- **The end of the method.** The handler knows no more than where the continuation is. -/
theorem goes_exit (room : s.Room [l.heldContinuation]) {bodyEnd handler rethrow : Label}
    (hbodyEnd : s.labels bodyEnd = none)
    (hhandler : s.labels handler = some (s.frame [l.heldContinuation] [.ofClass .throwable]))
    (hrethrow : s.labels rethrow = some (s.frame [l.heldContinuation] [.ofClass .throwable])) :
    s.Goes none (l.exit bodyEnd handler rethrow) none := by
  have hcaught : ∀ t ∈ [SlotType.ofClass .throwable], t ≠ .top := fun t ht =>
    List.mem_singleton.mp ht ▸ nofun
  have hcontinuation : l.heldContinuation ∈ [l.heldContinuation] := List.mem_cons_self ..
  have hreset : s.Goes (some (s.frame [l.heldContinuation] [.ofClass .throwable]))
      [l.continuation.load, callVirtual Interface.Continuation.reset]
      (some (s.frame [l.heldContinuation] [.ofClass .throwable])) :=
    .cons (.load room hcontinuation) (.plain room ⟨rfl, rfl, rfl⟩ fun _ => rfl)
  exact .append (.append (.append (.append (.cons (.skip hbodyEnd) (.arrive room hhandler nofun))
    (goes_unlessMode room hcontinuation _ (room.awaited hrethrow hcaught))) hreset)
    (.onStack room l.onStack_rollback))
    (.cons (.pass room hrethrow hcaught) (.leave room rfl rfl (fun _ => rfl) nofun))

end Site

/-! ## Restoring -/

namespace SavedValue

/-- The type of a value that was restored. -/
def type (v : SavedValue) : SlotType :=
  match v.kind.slot? with
  | some t => t
  | none => .object (v.cast.getD (.object .object))

/-- The variable of a saved value. -/
def holding (v : SavedValue) : Holding := ⟨v.slot, v.kind, v.type⟩

/-- Was the value saved from a variable of this type? -/
structure Saves (v : SavedValue) (t : SlotType) : Prop where
  /-- it is saved by its kind -/
  kind : ValueKind.ofSlot? t = some v.kind
  /-- and cast to its type when it goes back -/
  cast : v.cast = castType? t
  /-- its constructor has run -/
  initialized : t.isUninitialized = false

variable {v : SavedValue} {t : SlotType}

/-- It has the same type again. -/
theorem Saves.type_eq (h : v.Saves t) : v.type = t := by
  obtain ⟨kind, slot, cast⟩ := v
  obtain ⟨hkind, rfl, hinitialized⟩ := h
  cases t with
  | object r =>
    cases hkind
    change SlotType.object ((castType? (.object r)).getD (.object .object)) = .object r
    simp only [castType?]
    split
    · rename_i hobject
      rw [hobject]
      rfl
    · rfl
  | uninitializedThis | uninitialized => cases hinitialized
  | top | null => cases hkind
  | _ =>
    cases hkind
    rfl

end SavedValue

namespace Site

variable {s : Site} {l : Layout} {held : Holdings} {kind : ValueKind} {array : Lease}

/-- What an array of saved values is in. -/
def heldElements (array : Lease) (kind : ValueKind) : Holding :=
  array.holds (.object kind.arrayType)

/-- **One value** is put back. -/
theorem goes_restoreElement (room : s.Room held) {v : SavedValue} {t : SlotType} (hv : v.Saves t)
    (hkind : v.kind = kind) (harray : heldElements array kind ∈ held)
    (hfits : Holdings.Fits s.first s.size (v.holding :: held)) (index : Nat) :
    s.Goes (some (s.frame held [])) (Layout.restoreElement kind array v index)
      (some (s.frame (v.holding :: held) [])) := by
  subst hkind
  have hempty : ∀ t ∈ ([] : List SlotType), t ≠ .top := List.forall_mem_nil _
  have hread : s.Goes (some (s.frame held []))
      [array.load, .pushInt (Int32.ofNat index), .arrayLoad v.kind.element]
      (some (s.frame held [.ofField v.kind.elementType])) := by
    refine .cons (.load room harray) <| .cons (.plain room ⟨rfl, rfl, rfl⟩ fun _ => rfl) <|
      .plain room ⟨rfl, rfl, rfl⟩ fun _ => ?_
    cases v.kind <;> rfl
  have hcast : s.Goes (some (s.frame held [.ofField v.kind.elementType]))
      (v.cast.map Instruction.checkCast).toList (some (s.frame held [v.type])) := by
    rw [hv.type_eq]
    obtain ⟨kind, slot, cast⟩ := v
    obtain ⟨hkind, rfl, hinitialized⟩ := hv
    cases t with
    | object r =>
      cases hkind
      simp only [castType?]
      split
      · rename_i hobject
        rw [hobject]
        exact .nil
      · exact .plain room ⟨rfl, rfl, rfl⟩ fun _ => rfl
    | uninitializedThis | uninitialized => cases hinitialized
    | top | null => cases hkind
    | _ =>
      cases hkind
      exact .nil
  exact .append (.append hread hcast) (.hold (x := v.holding) room hfits hempty)

variable {values : List SavedValue} {all : Holdings}

/-- What is needed to put values back: they were saved, and all variables are apart. -/
structure Restores (s : Site) (all : Holdings) (values : List SavedValue) : Prop where
  /-- every value was saved -/
  saved : ∀ v ∈ values, ∃ t, v.Saves t
  /-- every value has a variable -/
  holdings : ∀ v ∈ values, v.holding ∈ all
  /-- the variables are apart from one another -/
  fits : all.Fits s.first s.size

theorem Restores.of_subset {values' : List SavedValue} (h : Restores s all values)
    (hsub : values' ⊆ values) : Restores s all values' :=
  ⟨fun v hv => h.saved v (hsub hv), fun v hv => h.holdings v (hsub hv), h.fits⟩

/-- Values of a kind are put back one after the other. -/
theorem goes_restoreElements (h : Restores s all values)
    (room : s.Room (heldElements array kind :: held)) (hsub : held ⊆ all)
    (hkinds : ∀ v ∈ values, v.kind = kind)
    (hfits : Holdings.Fits s.first s.size (heldElements array kind :: all)) {goal : Holdings}
    (hgoal : ∀ x ∈ goal, x ∈ held ∨ ∃ v ∈ values, x = v.holding) (n : Nat) :
    s.Goes (some (s.frame (heldElements array kind :: held) []))
      ((values.zipIdx n).flatMap fun (value, index) => Layout.restoreElement kind array value index)
      (some (s.frame goal [])) := by
  have hempty : ∀ t ∈ ([] : List SlotType), t ≠ .top := List.forall_mem_nil _
  induction values generalizing held n with
  | nil =>
    exact .forget room (fun x hx => List.mem_cons_of_mem _ ((hgoal x hx).resolve_right nofun)) hempty
  | cons v values ih =>
    obtain ⟨t, hv⟩ := h.saved v (List.mem_cons_self ..)
    obtain ⟨hkind, hkinds⟩ := List.forall_mem_cons.mp hkinds
    -- the new variable stands behind the array, and in front of those that are in use already
    have hsub' : v.holding :: held ⊆ all :=
      List.cons_subset.mpr ⟨h.holdings v (List.mem_cons_self ..), hsub⟩
    have hmore : v.holding :: heldElements array kind :: held ⊆
        heldElements array kind :: v.holding :: held := by simp
    have hless : heldElements array kind :: v.holding :: held ⊆
        v.holding :: heldElements array kind :: held := by simp
    have hfits' := hfits.subset (List.cons_subset_cons _ hsub')
    have room₁ := room.cons (hfits'.subset hmore)
    have hfirst : s.Goes _ _ (some (s.frame (heldElements array kind :: v.holding :: held) [])) :=
      (goes_restoreElement room hv hkind (List.mem_cons_self ..) (hfits'.subset hmore) n).forgetting
        room₁ hless hempty
    refine hfirst.append (ih (h.of_subset (List.subset_cons_self ..)) (room₁.grow hmore hfits') hsub'
      hkinds (fun x hx => ?_) (n + 1))
    rcases hgoal x hx with hx | ⟨w, hw, rfl⟩
    · exact .inl (List.mem_cons_of_mem _ hx)
    · rcases List.mem_cons.mp hw with rfl | hw
      · exact .inl (List.mem_cons_self ..)
      · exact .inr ⟨w, hw, rfl⟩

/-- Is this the method that gives the saved locals, or the saved stack? -/
def IsDataGetter (getter : MethodRef) : Prop :=
  getter = Interface.MethodState.getLocals ∨ getter = Interface.MethodState.getStack

/-- Values of a kind are put back from the array that holds them. -/
theorem goes_restoreKind (h : Restores s all values) (room : s.Room held) (hsub : held ⊆ all)
    (hstate : l.heldState ∈ held) {getter : MethodRef} (hgetter : IsDataGetter getter)
    {first : Nat} {leases : List Lease}
    (hfits : ∀ array : Lease, array.kind = .object → Separate first (array :: leases) →
      Holdings.Fits s.first s.size (heldElements array kind :: all))
    {code : List Instruction} (hcode : RestoresKind l first leases getter values kind code)
    {goal : Holdings}
    (hgoal : ∀ x ∈ goal, x ∈ held ∨ ∃ v ∈ values, v.kind = kind ∧ x = v.holding) :
    s.Goes (some (s.frame held [])) code (some (s.frame goal [])) := by
  have hempty : ∀ t ∈ ([] : List SlotType), t ≠ .top := List.forall_mem_nil _
  cases hcode with
  | nothing hnone =>
    refine .forget room (fun x hx => (hgoal x hx).resolve_right ?_) hempty
    rintro ⟨v, hv, hkind, -⟩
    have hmem : v ∈ values.filter (·.kind = kind) :=
      List.mem_filter.mpr ⟨hv, decide_eq_true hkind⟩
    rw [hnone] at hmem
    cases hmem
  | elements array hkind hseparate =>
    have hfits' := hfits array hkind hseparate
    have hheld := hfits'.subset (List.cons_subset_cons _ hsub)
    have hdata : ∀ index, (s.frame held [.ofClass .methodState]).step s.context index
        (callVirtual getter) = .ok (s.frame held [.ofClass .data]) := by
      intro index
      rcases hgetter with rfl | rfl <;> rfl
    have harray : ∀ index, (s.frame held [.ofClass .data]).step s.context index
        (callVirtual kind.getter) = .ok (s.frame held [.object kind.arrayType]) := by
      intro index
      cases kind <;> rfl
    have hstore : s.Goes (some (s.frame held [.object kind.arrayType])) [array.store]
        (some (s.frame (heldElements array kind :: held) [])) :=
      .hold (x := heldElements array kind) room hheld hempty
    refine .append (.cons (.load room hstate) <| .cons (.plain room ⟨rfl, rfl, rfl⟩ hdata) <|
      .cons (.plain room ⟨rfl, rfl, rfl⟩ harray) hstore) (goes_restoreElements
        (h.of_subset fun v hv => (List.mem_filter.mp hv).1) (room.cons hheld) hsub
        (fun v hv => of_decide_eq_true (List.mem_filter.mp hv).2) hfits' (fun x hx => ?_) 0)
    rcases hgoal x hx with hx | ⟨v, hv, hv', rfl⟩
    · exact .inl hx
    · exact .inr ⟨v, List.mem_filter.mpr ⟨hv, decide_eq_true hv'⟩, rfl⟩

/-- **All saved values** of the locals, or of the stack, are put back. -/
theorem goes_restoreData (h : Restores s all values) (room : s.Room held) (hsub : held ⊆ all)
    (hstate : l.heldState ∈ held) {getter : MethodRef} (hgetter : IsDataGetter getter)
    {first : Nat} {leases : List Lease}
    (hfits : ∀ kind (array : Lease), array.kind = .object → Separate first (array :: leases) →
      Holdings.Fits s.first s.size (heldElements array kind :: all))
    {code : List Instruction} (hcode : RestoresData l first leases getter values code) :
    s.Goes (some (s.frame held [])) code
      (some (s.frame (values.map (·.holding) ++ held) [])) := by
  have hempty : ∀ t ∈ ([] : List SlotType), t ≠ .top := List.forall_mem_nil _
  -- one block for each kind; what was restored before stays held
  have hkinds : ∀ (kinds : List ValueKind) (blocks : List (List Instruction)) (held goal : Holdings),
      List.Forall₂ (RestoresKind l first leases getter values) kinds blocks → s.Room held →
      held ⊆ all → l.heldState ∈ held →
      (∀ x ∈ goal, x ∈ held ∨ ∃ v ∈ values, v.kind ∈ kinds ∧ x = v.holding) →
      s.Goes (some (s.frame held [])) blocks.flatten (some (s.frame goal [])) := by
    intro kinds blocks held goal hblocks
    induction hblocks generalizing held with
    | nil =>
      intro room _ _ hgoal
      refine .forget room (fun x hx => (hgoal x hx).resolve_right ?_) hempty
      rintro ⟨_, -, hnone, -⟩
      cases hnone
    | @cons kind block kinds blocks hblock _ ih =>
      intro room hsub hstate hgoal
      have hheld : held ⊆ (values.filter (·.kind = kind)).map (·.holding) ++ held :=
        List.subset_append_right ..
      have hsub' : (values.filter (·.kind = kind)).map (·.holding) ++ held ⊆ all := by
        refine List.append_subset.mpr ⟨fun x hx => ?_, hsub⟩
        obtain ⟨v, hv, rfl⟩ := List.mem_map.mp hx
        exact h.holdings v (List.mem_filter.mp hv).1
      refine (goes_restoreKind h room hsub hstate hgetter (hfits kind) hblock fun x hx => ?_).append
        (ih _ (room.grow hheld (h.fits.subset hsub')) hsub' (hheld hstate) fun x hx => ?_)
      · rcases List.mem_append.mp hx with hx | hx
        · obtain ⟨v, hv, rfl⟩ := List.mem_map.mp hx
          obtain ⟨hv, hkind⟩ := List.mem_filter.mp hv
          exact .inr ⟨v, hv, of_decide_eq_true hkind, rfl⟩
        · exact .inl hx
      · rcases hgoal x hx with hx | ⟨v, hv, hmem, rfl⟩
        · exact .inl (hheld hx)
        · rcases List.mem_cons.mp hmem with hkind | hmem
          · exact .inl (List.mem_append_left _ (List.mem_map_of_mem
              (List.mem_filter.mpr ⟨hv, decide_eq_true hkind⟩)))
          · exact .inr ⟨v, hv, hmem, rfl⟩
  obtain ⟨blocks, hblocks, rfl⟩ := hcode
  refine hkinds _ blocks held _ hblocks room hsub hstate fun x hx => ?_
  rcases List.mem_append.mp hx with hx | hx
  · obtain ⟨v, hv, rfl⟩ := List.mem_map.mp hx
    exact .inr ⟨v, hv, by cases v.kind <;> simp [ValueKind.all], rfl⟩
  · exact .inl hx

/-- A local that holds null. -/
def heldNull (slot : Nat) : Holding := ⟨slot, .object, .null⟩

/-- Null is put back. -/
theorem goes_restoreNulls {slots : List Nat} (room : s.Room held) (hsub : held ⊆ all)
    (hslots : slots.map heldNull ⊆ all) (hfits : all.Fits s.first s.size) :
    s.Goes (some (s.frame held [])) (Layout.restoreNulls slots)
      (some (s.frame (slots.map heldNull ++ held) [])) := by
  have hempty : ∀ t ∈ ([] : List SlotType), t ≠ .top := List.forall_mem_nil _
  induction slots generalizing held with
  | nil => exact .nil
  | cons slot slots ih =>
    obtain ⟨hslot, hslots'⟩ := List.cons_subset.mp hslots
    have hsub' : heldNull slot :: held ⊆ all := List.cons_subset.mpr ⟨hslot, hsub⟩
    have room' := room.cons (hfits.subset hsub')
    refine .append (.cons (.plain room ⟨rfl, rfl, rfl⟩ fun _ => rfl)
      (.hold (x := heldNull slot) room (hfits.subset hsub') hempty)) ?_
    refine (ih room' hsub' hslots').forgetting (room'.grow (List.subset_append_right ..)
      (hfits.subset (List.append_subset.mpr ⟨hslots', hsub'⟩))) ?_ hempty
    intro x hx
    simp only [List.map_cons, List.cons_append, List.mem_cons, List.mem_append] at hx ⊢
    tauto

end Site

/-! ## All variables of a point -/

section

variable {types : List SlotType} {leases : List (Option Lease)}

/-- Values of the stack that were saved, as variables: what the stack was spilled into. -/
theorem savedStack_saves (h : List.Forall₂ Leased types leases)
    (hinitialized : ∀ t ∈ types, t.isUninitialized = false) :
    (∀ v ∈ savedStack types leases, ∃ t, v.Saves t) ∧
      (savedStack types leases).map (·.holding) = Holdings.spilled types leases := by
  induction h with
  | nil => exact ⟨nofun, rfl⟩
  | @cons t lease types leases hlease _ ih =>
    obtain ⟨ht, hinitialized⟩ := List.forall_mem_cons.mp hinitialized
    obtain ⟨hsaves, hholdings⟩ := ih hinitialized
    cases lease with
    | none => exact ⟨hsaves, hholdings⟩
    | some lease =>
      have hsaved : SavedValue.Saves ⟨lease.kind, lease.slot, castType? t⟩ t :=
        ⟨hlease.symm, rfl, ht⟩
      have hholding : (⟨lease.kind, lease.slot, castType? t⟩ : SavedValue).holding = lease.holds t := by
        rw [SavedValue.holding, hsaved.type_eq]
        rfl
      exact ⟨List.forall_mem_cons.mpr ⟨⟨t, hsaved⟩, hsaves⟩, congrArg₂ _ hholding hholdings⟩

end

namespace SuspendPoint

variable {p : SuspendPoint} {l : Layout} {first : Nat}

/-- Locals that are usable once a point is restored. -/
def usable (p : SuspendPoint) : Holdings :=
  p.savedLocals.map (·.holding) ++ p.nullLocals.map Site.heldNull

/-- Variables that are in use once a point is restored. -/
def holdings (p : SuspendPoint) (l : Layout) (leases : List (Option Lease)) : Holdings :=
  p.usable ++ (.spilled p.stackToSave leases ++ l.heldState :: l.lasting)

/-- The stack that the block of a point puts back. -/
def stackBack (p : SuspendPoint) : List SlotType :=
  match p.kind with
  | .invoke => []
  | .suspend => p.stackToSave.reverse

theorem initialized_of (h : p.frame.hasUninitialized = false) :
    (∀ t ∈ p.frame.locals, t.isUninitialized = false) ∧
      ∀ t ∈ p.stackToSave, t.isUninitialized = false := by
  simp only [Frame.hasUninitialized, Bool.or_eq_false_iff, List.any_eq_false, Bool.not_eq_true] at h
  refine ⟨h.2, fun t ht => h.1 t ?_⟩
  rw [stackToSave] at ht
  split at ht
  · exact List.mem_reverse.mp ht
  · exact List.mem_of_mem_tail (List.mem_reverse.mp ht)

theorem savedLocals_saves (hframe : p.frame.WellFormed first)
    (hinitialized : p.frame.hasUninitialized = false) {v : SavedValue} (hv : v ∈ p.savedLocals) :
    ∃ t, v.Saves t ∧ p.frame.locals[v.slot]? = some t := by
  obtain ⟨t, hget, hkind, hcast⟩ := (mem_savedLocals hframe.halves).mp hv
  exact ⟨t, ⟨hkind, hcast, (initialized_of hinitialized).1 t (List.mem_of_getElem? hget)⟩, hget⟩

/-- They have the types that they had at the point. -/
theorem usable_types (hframe : p.frame.WellFormed first)
    (hinitialized : p.frame.hasUninitialized = false) :
    (∀ x ∈ p.usable, p.frame.locals[x.slot]? = some x.type ∧ Frame.holdsKind x.kind x.type = true) ∧
      ∀ slot t, p.frame.locals[slot]? = some t → t = .top ∨ ∃ x ∈ p.usable, x.slot = slot ∧
        x.type = t := by
  constructor
  · intro x hx
    rcases List.mem_append.mp hx with hx | hx
    · obtain ⟨v, hv, rfl⟩ := List.mem_map.mp hx
      obtain ⟨t, hsaves, hget⟩ := savedLocals_saves hframe hinitialized hv
      have htype : v.holding.type = t := hsaves.type_eq
      exact htype ▸ ⟨hget, holdsKind_of_ofSlot? hsaves.kind⟩
    · obtain ⟨slot, hslot, rfl⟩ := List.mem_map.mp hx
      exact ⟨(mem_nullLocals hframe.halves).mp hslot, rfl⟩
  · intro slot t hget
    cases hkind : ValueKind.ofSlot? t with
    | some kind =>
      have hv : ⟨kind, slot, castType? t⟩ ∈ p.savedLocals :=
        (mem_savedLocals hframe.halves).mpr ⟨t, hget, hkind, rfl⟩
      have hsaves : SavedValue.Saves ⟨kind, slot, castType? t⟩ t :=
        ⟨hkind, rfl, (initialized_of hinitialized).1 t (List.mem_of_getElem? hget)⟩
      exact .inr ⟨_, List.mem_append_left _ (List.mem_map_of_mem hv), rfl, hsaves.type_eq⟩
    | none =>
      cases t with
      | top => exact .inl rfl
      | null =>
        exact .inr ⟨_, List.mem_append_right _ (List.mem_map_of_mem
          ((mem_nullLocals hframe.halves).mpr hget)), rfl, rfl⟩
      | _ => cases hkind

end SuspendPoint

namespace PointCode

variable {l : Layout} {first : Nat} {p : SuspendPoint} {i : Instruction} {here : Label}
  {piece : Piece}

/-- **All variables are apart** when a point is restored, those included that are leased meanwhile. -/
theorem fits (q : PointCode l first l.shared p i here piece) (hready : l.Ready first)
    (hfirst : first ≤ 0xFFFF) (hframe : p.frame.WellFormed first)
    (hinitialized : p.frame.hasUninitialized = false) {extra : List Lease} {xs : Holdings}
    (h : Separate first (extra ++ (q.leases.filterMap id ++ l.shared)))
    (hxs : xs.map Holding.span = extra.map Lease.span)
    (hkinds : ∀ x ∈ xs, Frame.holdsKind x.kind x.type = true) :
    (xs ++ p.holdings l q.leases).Fits 0 0xFFFF := by
  have hbelow : Holdings.Fits 0 first p.usable :=
    Holdings.fits_of_frame hframe (SuspendPoint.usable_types hframe hinitialized).1
  refine (hbelow.append (Layout.fits hready h q.leased hxs hkinds) hfirst).subset fun x hx => ?_
  have hstate := l.state_pool (a := x)
  simp only [SuspendPoint.holdings, List.mem_append] at hx ⊢
  tauto

end PointCode

namespace Site

variable {s : Site} {l : Layout} {first : Nat} {p : SuspendPoint} {i : Instruction} {here : Label}
  {piece : Piece}

/-- **The block of a point** puts everything back. -/
theorem goes_restoreBlock (q : PointCode l first l.shared p i here piece) (hzero : s.first = 0)
    (hsize : s.size = 0xFFFF) (hready : l.Ready first) (hfirst : first ≤ 0xFFFF)
    (hframe : p.frame.WellFormed first) (hinitialized : p.frame.hasUninitialized = false)
    (room : s.Room (l.heldState :: l.lasting))
    (hhere : s.labels here = some (s.frame (l.heldState :: l.lasting) []))
    (hresume : (s.frame (p.holdings l q.leases) p.stackBack).Awaited s.labels s.size q.resume) :
    s.Goes none piece.block none := by
  have hempty : ∀ t ∈ ([] : List SlotType), t ≠ .top := List.forall_mem_nil _
  have hfits : (p.holdings l q.leases).Fits s.first s.size := by
    rw [hzero, hsize]
    have hseparate : Separate first ([] ++ (q.leases.filterMap id ++ l.shared)) := q.separate
    have hnone : ∀ x ∈ ([] : Holdings), Frame.holdsKind x.kind x.type = true := nofun
    exact q.fits hready hfirst hframe hinitialized hseparate rfl hnone
  have harrays : ∀ kind (array : Lease), array.kind = .object →
      Separate first (array :: (q.leases.filterMap id ++ l.shared)) →
      Holdings.Fits s.first s.size (heldElements array kind :: p.holdings l q.leases) := by
    intro kind array hkind hseparate
    rw [hzero, hsize]
    have hkinds : ∀ x ∈ [heldElements array kind], Frame.holdsKind x.kind x.type = true := by
      intro x hx
      rw [List.mem_singleton.mp hx, heldElements, Lease.holds, hkind]
      rfl
    have hseparate' : Separate first ([array] ++ (q.leases.filterMap id ++ l.shared)) := hseparate
    exact q.fits hready hfirst hframe hinitialized hseparate' rfl hkinds
  obtain ⟨hsaves, hspilled⟩ := savedStack_saves q.leased (p.initialized_of hinitialized).2
  have hlocals : p.savedLocals.map (·.holding) ⊆ p.holdings l q.leases := fun x hx =>
    List.mem_append_left _ (List.mem_append_left _ hx)
  have hnulls : p.nullLocals.map heldNull ⊆ p.holdings l q.leases := fun x hx =>
    List.mem_append_left _ (List.mem_append_right _ hx)
  have hstack : .spilled p.stackToSave q.leases ⊆ p.holdings l q.leases := fun x hx =>
    List.mem_append_right _ (List.mem_append_left _ hx)
  have hshared : l.heldState :: l.lasting ⊆ p.holdings l q.leases := fun x hx =>
    List.mem_append_right _ (List.mem_append_right _ hx)
  have hstate : l.heldState ∈ l.heldState :: l.lasting := List.mem_cons_self ..
  -- what is in use after each part of the block
  have hsub₁ := List.append_subset.mpr ⟨hlocals, hshared⟩
  have hsub₂ := List.append_subset.mpr ⟨hnulls, hsub₁⟩
  have room₁ := room.grow (List.subset_append_right ..) (hfits.subset hsub₁)
  have room₂ := room₁.grow (List.subset_append_right ..) (hfits.subset hsub₂)
  have room₃ := room₂.grow (List.subset_append_right (Holdings.spilled p.stackToSave q.leases) _)
    (hfits.subset (List.append_subset.mpr ⟨hstack, hsub₂⟩))
  have hrestoreLocals : s.Goes (some (s.frame (l.heldState :: l.lasting) [])) q.locals _ :=
    goes_restoreData ⟨fun v hv => (p.savedLocals_saves hframe hinitialized hv).imp fun _ => And.left,
      fun v hv => hlocals (List.mem_map_of_mem hv), hfits⟩ room hshared hstate (.inl rfl) harrays
      q.restores_locals
  have hrestoreStack := goes_restoreData (l := l) ⟨hsaves,
      fun v hv => hstack (hspilled ▸ List.mem_map_of_mem hv), hfits⟩ room₂ hsub₂
      (List.mem_append_right _ (List.mem_append_right _ hstate)) (.inr rfl) harrays q.restores_stack
  rw [hspilled] at hrestoreStack
  have hall : p.holdings l q.leases ⊆ .spilled p.stackToSave q.leases ++
      (p.nullLocals.map heldNull ++ (p.savedLocals.map (·.holding) ++
        l.heldState :: l.lasting)) := by
    intro x hx
    simp only [SuspendPoint.holdings, SuspendPoint.usable, List.mem_append] at hx ⊢
    tauto
  have hforget := hrestoreStack.forgetting room₃ hall hempty
  have room' := room.grow hshared hfits
  have htypes : ∀ t ∈ p.stackToSave, t ≠ .top := p.stackToSave_ne_top hframe
  have hresumed : s.Goes (some (s.frame (p.holdings l q.leases) [])) (l.resumed p q.leases)
      (some (s.frame (p.holdings l q.leases) p.stackBack)) := by
    simp only [Layout.resumed, SuspendPoint.stackBack]
    cases p.kind with
    | invoke => exact .nil
    | suspend =>
      have hreload : s.Goes (some (s.frame (p.holdings l q.leases) [])) (reloadStack q.leases)
          (some (s.frame (p.holdings l q.leases) (p.stackToSave.reverse ++ []))) :=
        goes_reload room' q.leased hstack htypes
      rw [List.append_nil] at hreload
      exact .append (goes_setMode room' (hshared (List.mem_cons_of_mem _ l.continuation_lasting)) _)
        hreload
  rw [q.block_eq]
  exact .append (.append (.append (.append (.append (.append (.arrive room hhere nofun)
    (goes_announce room _)) hrestoreLocals) (goes_restoreNulls room₁ hsub₁ hnulls hfits)) hforget)
    hresumed) (.goto room' hresume)

end Site

end Resumption
