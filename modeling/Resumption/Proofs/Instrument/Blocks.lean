import Resumption.Proofs.Instrument.Typing

/-!
# Types of the blocks that save

How control goes through the blocks with which a suspendable body saves itself. Each block is told
where it stands (`Site`) and which variables are in use.

* **`Layout.lasting`** are the variables that are in use all the time.
* **`Site.goes_spill`** and **`Site.goes_reload`** move the stack into variables and back.
* **`Layout.onStack_pushState`** makes the state that is saved, from values that can be stored.
* **`Layout.goes_exitLoop`** leaves the monitors.
* **`Layout.goes_save`** does all of this and returns.
-/

namespace Resumption

section

variable {context : MethodContext} {size first : Nat} {xs stack : List SlotType}

/-! ## Calls -/

/-- Arguments that fit the parameters are popped. -/
theorem popFitting_of_forall₂ {parameters : List FieldType} {ts : List SlotType}
    (h : List.Forall₂ (fun t p => t.fits (.ofField p) = true) ts parameters) :
    Frame.popFitting parameters (ts ++ stack) = .ok stack := by
  induction h with
  | nil => rfl
  | cons hfits _ ih =>
    refine Except.bind_ok.mpr ⟨(_, _), if_pos hfits, ih⟩

/-- A call without an object. -/
theorem step_callStatic {m : MethodRef} {ts : List SlotType} (index : Nat)
    (h : List.Forall₂ (fun t p => t.fits (.ofField p) = true) ts m.descriptor.parameters.reverse) :
    (⟨xs, ts ++ stack⟩ : Frame).step context index (callStatic m) =
      .ok ⟨xs, Frame.pushResult m.descriptor.result stack⟩ := by
  have hstep : (⟨xs, ts ++ stack⟩ : Frame).step context index (callStatic m) = (do
      let stack ← Frame.popFitting m.descriptor.parameters.reverse (ts ++ stack)
      return ⟨xs, Frame.pushResult m.descriptor.result stack⟩) := rfl
  rw [hstep, popFitting_of_forall₂ h]
  rfl

/-- Is this the type of an initialized reference? -/
abbrev SlotType.IsObject (t : SlotType) : Prop := t.fits (.ofClass .object) = true

/-- Objects fit every type of references. -/
theorem SlotType.IsObject.fits {t : SlotType} (h : t.IsObject) (type : RefType) :
    t.fits (.object type) = true := by
  cases t with
  | null | object => rfl
  | _ => cases h

/-- Objects are one word wide. -/
theorem SlotType.IsObject.width {t : SlotType} (h : t.IsObject) : t.width = 1 := by
  cases t with
  | null | object => rfl
  | _ => cases h

/-- Objects are of the kind of references. -/
theorem SlotType.IsObject.holdsKind {t : SlotType} (h : t.IsObject) :
    Frame.holdsKind .object t = true := by
  cases t with
  | null | object => rfl
  | _ => cases h

/-! ## Arrays of saved values -/

/-- With these locals, the value can be loaded and put into an array. -/
def Storable (context : MethodContext) (xs : List SlotType) (value : SavedValue) : Prop :=
  ∃ t, Frame.fitsElement value.kind.element t = true ∧ ∀ index stack,
    (⟨xs, stack⟩ : Frame).step context index (.load value.kind value.slot) = .ok ⟨xs, t :: stack⟩

namespace Layout

variable {l : Layout}

/-- A value that can be saved goes into its array. -/
theorem onStack_saveElement {kind : ValueKind} {value : SavedValue} (hkind : value.kind = kind)
    (h : Storable context xs value) (index : Nat) :
    OnStack context xs (.object kind.arrayType :: stack) (saveElement kind value index)
      (.object kind.arrayType :: stack) := by
  obtain ⟨t, hfits, hload⟩ := h
  rw [hkind] at hfits hload
  refine .cons ⟨rfl, rfl, rfl⟩ (fun _ => rfl) <| .cons ⟨rfl, rfl, rfl⟩ (fun _ => rfl) <|
    .cons ⟨rfl, rfl, rfl⟩ (fun index => hload index _) <| .single ⟨rfl, rfl, rfl⟩ fun _ => ?_
  refine Except.bind_ok.mpr ⟨(t, _), if_pos hfits, ?_⟩
  cases kind <;> rfl

/-- The array for a kind is put in place of its length. -/
theorem onStack_allocateArray (kind : ValueKind) :
    OnStack context xs (.integer :: stack) [l.allocateArray kind]
      (.object kind.arrayType :: stack) := by
  unfold allocateArray
  cases l.settings.allocator <;> cases kind <;> exact .single ⟨rfl, rfl, rfl⟩ fun _ => rfl

/-- Null, or an array of the saved values. -/
theorem onStack_buildArray (kind : ValueKind) {values : List SavedValue}
    (h : ∀ value ∈ values, Storable context xs value) :
    ∃ t : SlotType, t.IsObject ∧
      OnStack context xs stack (l.buildArray kind values) (t :: stack) := by
  have hfold : ∀ (ofKind : List SavedValue) n, (∀ value ∈ ofKind, Storable context xs value) →
      (∀ value ∈ ofKind, value.kind = kind) →
      OnStack context xs (.object kind.arrayType :: stack)
        ((ofKind.zipIdx n).flatMap fun placed => saveElement kind placed.1 placed.2)
        (.object kind.arrayType :: stack) := by
    intro ofKind
    induction ofKind with
    | nil => exact fun _ _ _ => .nil _
    | cons value ofKind ih =>
      intro n hstorable hkinds
      obtain ⟨hvalue, hstorable⟩ := List.forall_mem_cons.mp hstorable
      obtain ⟨hkind, hkinds⟩ := List.forall_mem_cons.mp hkinds
      exact (onStack_saveElement hkind hvalue n).append (ih (n + 1) hstorable hkinds)
  rw [buildArray]
  split
  · exact ⟨.null, rfl, .single ⟨rfl, rfl, rfl⟩ fun _ => rfl⟩
  · refine ⟨_, rfl, .cons ⟨rfl, rfl, rfl⟩ (fun _ => rfl) ((onStack_allocateArray kind).append
      (hfold _ 0 (fun value hvalue => h value (List.mem_filter.mp hvalue).1) fun value hvalue => ?_))⟩
    exact of_decide_eq_true (List.mem_filter.mp hvalue).2

/-- Saving values pushes what they are saved in. -/
theorem onStack_buildData {values : List SavedValue}
    (h : ∀ value ∈ values, Storable context xs value) :
    OnStack context xs stack (l.buildData values) (.ofClass .data :: stack) := by
  have hall : ∀ (kinds : List ValueKind) (stack : List SlotType),
      ∃ ts : List SlotType, ts.length = kinds.length ∧ (∀ t ∈ ts, t.IsObject) ∧
        OnStack context xs stack (kinds.flatMap (l.buildArray · values)) (ts ++ stack) := by
    intro kinds
    induction kinds with
    | nil => exact fun stack => ⟨[], rfl, nofun, .nil stack⟩
    | cons kind kinds ih =>
      intro stack
      obtain ⟨t, ht, hbuild⟩ : ∃ t : SlotType, t.IsObject ∧
        OnStack context xs stack (l.buildArray kind values) (t :: stack) := onStack_buildArray kind h
      obtain ⟨ts, hlength, hts, hbuilds⟩ := ih (t :: stack)
      refine ⟨ts ++ [t], by simp [hlength], fun u hu => ?_, ?_⟩
      · rcases List.mem_append.mp hu with hu | hu
        · exact hts u hu
        · exact List.mem_singleton.mp hu ▸ ht
      · rw [List.append_assoc, List.flatMap_cons]
        exact hbuild.append hbuilds
  obtain ⟨ts, hlength, hts, hbuild⟩ := hall ValueKind.all stack
  refine hbuild.append (.single ⟨rfl, rfl, rfl⟩ fun index => step_callStatic index ?_)
  match ts, hlength with
  | [a, b, c, d, e], _ =>
    simp only [List.forall_mem_cons] at hts
    obtain ⟨ha, hb, hc, hd, he, -⟩ := hts
    exact .cons (ha.fits _) (.cons (hb.fits _) (.cons (hc.fits _) (.cons (hd.fits _)
      (.cons (he.fits _) .nil))))

/-- Announcements leave the stack. -/
theorem onStack_announce (what : String) : OnStack context xs stack (l.announce what) stack := by
  rw [announce]
  split
  · exact .nil _
  · exact .cons ⟨rfl, rfl, rfl⟩ (fun _ => rfl) (.single ⟨rfl, rfl, rfl⟩ fun _ => rfl)
  · exact .cons ⟨rfl, rfl, rfl⟩ (fun _ => rfl) (.cons ⟨rfl, rfl, rfl⟩ (fun _ => rfl)
      (.single ⟨rfl, rfl, rfl⟩ fun _ => rfl))

/-- Committing saved frames leaves the stack. -/
theorem onStack_commit : OnStack context xs stack l.commit stack := by
  rw [commit]
  split
  · exact .single ⟨rfl, rfl, rfl⟩ fun _ => rfl
  · exact .nil _

/-- Rolling back leaves the stack. -/
theorem onStack_rollback : OnStack context xs stack l.rollback stack := by
  rw [rollback]
  split
  · exact .single ⟨rfl, rfl, rfl⟩ fun _ => rfl
  · exact .nil _

end Layout

/-- Values are dropped one by one. -/
theorem onStack_drop {ts : List SlotType} (hts : ∀ t ∈ ts, t ≠ .top) :
    OnStack context xs (ts ++ stack) (ts.map fun t => dropTop t.width) stack := by
  induction ts with
  | nil => exact .nil _
  | cons t ts ih =>
    refine .cons ⟨rfl, rfl, rfl⟩ (fun _ => ?_) (ih fun t ht => hts t (List.mem_cons_of_mem _ ht))
    cases t <;> rfl

end

/-! ## Variables that are in use all the time -/

namespace Layout

/-- What the continuation is in. -/
def heldContinuation (l : Layout) : Holding := l.continuation.holds (.ofClass .continuation)

/-- Variables that are in use all the time. -/
def lasting (l : Layout) : Holdings :=
  l.heldContinuation :: (l.monitors.map fun m => m.lockState.holds (.ofClass .lockState)).toList

variable {l : Layout} {m : MonitorVariables}

/-- The continuation lasts. -/
theorem continuation_lasting : l.heldContinuation ∈ l.lasting := List.mem_cons_self ..

/-- The list of held monitors lasts. -/
theorem lockState_lasting (hm : l.monitors = some m) :
    m.lockState.holds (.ofClass .lockState) ∈ l.lasting := by
  rw [lasting, hm]
  exact List.mem_cons_of_mem _ (List.mem_singleton.mpr rfl)

end Layout

/-- What the monitors that are entered or left are in. -/
def MonitorVariables.heldArray (m : MonitorVariables) : Holding :=
  m.array.holds (.ofField Interface.objects)

/-- What the position among them is in. -/
def MonitorVariables.heldIndex (m : MonitorVariables) : Holding := m.index.holds .integer

/-- Variables that a loop over monitors uses. -/
def Holdings.looping (m : MonitorVariables) (held : Holdings) : Holdings :=
  m.heldIndex :: m.heldArray :: held

namespace Site

variable {s : Site} {l : Layout} {held : Holdings} {stack : List SlotType}

/-- A change of the mode leaves the frame. -/
theorem goes_setMode (room : s.Room held) (hcontinuation : l.heldContinuation ∈ held) (mode : Mode) :
    s.Goes (some (s.frame held stack)) (l.setMode mode) (some (s.frame held stack)) :=
  .cons (.load room hcontinuation) <|
    .cons (.plain room ⟨rfl, rfl, rfl⟩ fun _ => rfl) <| .plain room ⟨rfl, rfl, rfl⟩ fun _ => rfl

/-- A test of the mode leaves the frame, on both ways. -/
theorem goes_unlessMode (room : s.Room held) (hcontinuation : l.heldContinuation ∈ held)
    (mode : Mode) {otherwise : Label}
    (hotherwise : (s.frame held stack).Awaited s.labels s.size otherwise) :
    s.Goes (some (s.frame held stack)) (l.unlessMode mode otherwise) (some (s.frame held stack)) :=
  .cons (.load room hcontinuation) <|
    .cons (.plain room ⟨rfl, rfl, rfl⟩ fun _ => rfl) <|
    .cons (.plain room ⟨rfl, rfl, rfl⟩ fun _ => rfl) <|
    .branch room rfl rfl (fun _ => rfl) fun _ ho => List.mem_singleton.mp ho ▸ hotherwise

/-- Announcements leave the frame. -/
theorem goes_announce (room : s.Room held) (what : String) :
    s.Goes (some (s.frame held stack)) (l.announce what) (some (s.frame held stack)) :=
  .onStack room (l.onStack_announce what)

/-! ## The spilled stack -/

end Site

/-- Variables that a stack, given bottom first, was spilled into. -/
def Holdings.spilled (types : List SlotType) (leases : List (Option Lease)) : Holdings :=
  (types.zip leases).filterMap fun (t, lease) => lease.map (·.holds t)

/-- A value without a variable is null. -/
theorem Leased.eq_null {t : SlotType} (h : Leased t none) (ht : t ≠ .top) : t = .null := by
  cases t with
  | null => rfl
  | top => exact absurd rfl ht
  | _ => cases h

namespace Site

variable {s : Site} {l : Layout} {held : Holdings} {stack : List SlotType}
  {types : List SlotType} {leases : List (Option Lease)}

/-- Spilling moves operands from the stack to their variables. -/
theorem goes_spill (room : s.Room held) (hleased : List.Forall₂ Leased types leases)
    (hfits : Holdings.Fits s.first s.size (.spilled types leases ++ held))
    (htypes : ∀ t ∈ types, t ≠ .top) (hstack : ∀ t ∈ stack, t ≠ .top) :
    s.Goes (some (s.frame held (types.reverse ++ stack))) (spillStack leases)
        (some (s.frame (.spilled types leases ++ held) stack)) ∧
      s.Room (.spilled types leases ++ held) := by
  -- The last type lies on top, so the rest is spilled before the first one is.
  induction hleased generalizing stack with
  | nil => exact ⟨.nil, room⟩
  | @cons t lease types leases hlease _ ih =>
    obtain ⟨ht, htypes'⟩ := List.forall_mem_cons.mp htypes
    rw [spillStack, List.reverse_cons, List.reverse_cons, List.map_append, List.append_assoc]
    cases lease with
    | none =>
      obtain rfl := hlease.eq_null ht
      obtain ⟨hrest, room'⟩ := ih hfits htypes' (List.forall_mem_cons.mpr ⟨ht, hstack⟩)
      exact ⟨hrest.append (.plain room' ⟨rfl, rfl, rfl⟩ fun _ => rfl), room'⟩
    | some lease =>
      have hfits' := hfits.subset (List.subset_cons_self ..)
      obtain ⟨hrest, room'⟩ := ih hfits' htypes' (List.forall_mem_cons.mpr ⟨ht, hstack⟩)
      exact ⟨hrest.append (.hold (x := lease.holds t) room' hfits hstack), room'.cons hfits⟩

/-- Reloading moves operands from their variables to the stack. -/
theorem goes_reload (room : s.Room held) (hleased : List.Forall₂ Leased types leases)
    (hsub : .spilled types leases ⊆ held) (htypes : ∀ t ∈ types, t ≠ .top) :
    s.Goes (some (s.frame held stack)) (reloadStack leases)
      (some (s.frame held (types.reverse ++ stack))) := by
  induction hleased generalizing stack with
  | nil => exact .nil
  | @cons t lease types leases hlease _ ih =>
    obtain ⟨ht, htypes'⟩ := List.forall_mem_cons.mp htypes
    rw [List.reverse_cons, List.append_assoc]
    cases lease with
    | none =>
      obtain rfl := hlease.eq_null ht
      exact .cons (.plain room ⟨rfl, rfl, rfl⟩ fun _ => rfl) (ih hsub htypes')
    | some lease =>
      exact .cons (.load (x := lease.holds t) room (hsub (List.mem_cons_self ..)))
        (ih (fun _ hx => hsub (List.mem_cons_of_mem _ hx)) htypes')

end Site

/-- **Clearing the stack** after a call that left its result on the stack of the point. -/
theorem onStack_clearAfterCall {context : MethodContext} {xs stack : List SlotType}
    {kind : CallKind} {m : MethodRef} (hstack : ∀ t ∈ stack, t ≠ .top) :
    OnStack context xs
      (Frame.pushResult m.descriptor.result (stack.drop
        (m.descriptor.parameters.length + if kind = .static then 0 else 1)))
      (clearAfterCall (.invoke kind m) stack.reverse) [] := by
  have hremaining : ∀ n, (stack.reverse.take (stack.length - n)).reverse = stack.drop n := by
    intro n
    rw [List.take_reverse, List.reverse_reverse]
    rcases Nat.le_total n stack.length with hle | hle
    · rw [Nat.sub_sub_self hle]
    · rw [Nat.sub_eq_zero_of_le hle, Nat.sub_zero, List.drop_length, List.drop_eq_nil_of_le hle]
  simp only [clearAfterCall, List.length_reverse, hremaining]
  generalize m.descriptor.parameters.length + (if kind = .static then 0 else 1) = consumed
  have hrest : OnStack context xs (stack.drop consumed)
      ((stack.drop consumed).map fun t => dropTop t.width) [] := by
    have hdrop : OnStack context xs (stack.drop consumed ++ []) _ [] :=
      onStack_drop fun t ht => hstack t (List.mem_of_mem_drop ht)
    rwa [List.append_nil] at hdrop
  cases m.descriptor.result with
  | none => exact hrest
  | some type =>
    have hfield : (SlotType.ofField type).width = type.width := by
      cases type with
      | base b => cases b <;> rfl
      | ref r => rfl
    have hne : SlotType.ofField type ≠ .top := by
      cases type with
      | base b => cases b <;> exact nofun
      | ref r => exact nofun
    have hdrop : OnStack context xs ([.ofField type] ++ stack.drop consumed) _
        (stack.drop consumed) := onStack_drop fun t ht => List.mem_singleton.mp ht ▸ hne
    rw [List.map_singleton, hfield] at hdrop
    exact hdrop.append hrest

/-! ## Saving -/

theorem holdsKind_of_ofSlot? {t : SlotType} {kind : ValueKind} (h : ValueKind.ofSlot? t = some kind) :
    Frame.holdsKind kind t = true := by
  cases t <;> cases h <;> rfl

/-- Only initialized objects can be put into an array. -/
theorem fitsElement_of_ofSlot? {t : SlotType} {kind : ValueKind}
    (h : ValueKind.ofSlot? t = some kind) (hinitialized : t.isUninitialized = false) :
    Frame.fitsElement kind.element t = true := by
  cases t <;> cases h <;> first | rfl | cases hinitialized

namespace Site

variable {s : Site} {l : Layout} {m : MonitorVariables} {held : Holdings} {stack : List SlotType}

theorem storable {value : SavedValue} {t : SlotType}
    (hslot : value.slot + value.kind.width ≤ s.size) (htype : s.types held value.slot = t)
    (hkind : ValueKind.ofSlot? t = some value.kind) (hinitialized : t.isUninitialized = false) :
    Storable s.context ((s.types held).locals s.size) value := by
  subst htype
  exact ⟨s.types held value.slot, fitsElement_of_ofSlot? hkind hinitialized, fun index stack =>
    Frame.of_load hslot (holdsKind_of_ofSlot? hkind)⟩

/-- **Making the state** that is saved. -/
theorem goes_pushState (room : s.Room held) (hlasting : l.lasting ⊆ held) {p : SuspendPoint}
    {leases : List (Option Lease)}
    (hlocals : ∀ value ∈ p.savedLocals, Storable s.context ((s.types held).locals s.size) value)
    (hstack : ∀ value ∈ savedStack p.stackToSave leases,
      Storable s.context ((s.types held).locals s.size) value) :
    s.Goes (some (s.frame held stack)) (l.pushState p leases) (some (s.frame held stack)) := by
  have hlockState : ∃ t : SlotType, t.IsObject ∧ ∀ stack, s.Goes (some (s.frame held stack))
      [l.pushLockState] (some (s.frame held (t :: stack))) := by
    rw [Layout.pushLockState]
    split
    · rename_i m hm
      exact ⟨_, rfl, fun stack => .load room (hlasting (l.lockState_lasting hm))⟩
    · exact ⟨.null, rfl, fun stack => .plain room ⟨rfl, rfl, rfl⟩ fun _ => rfl⟩
  obtain ⟨t, ht, hpush⟩ := hlockState
  rw [Layout.pushState]
  refine .append (.append (.append (.cons (.load room (hlasting l.continuation_lasting)) <|
    .cons (.plain room ⟨rfl, rfl, rfl⟩ fun _ => rfl) <|
    .cons (.plain room ⟨rfl, rfl, rfl⟩ fun _ => rfl) <|
    .cons (.plain room ⟨rfl, rfl, rfl⟩ fun _ => rfl) <|
    .cons (.plain room ⟨rfl, rfl, rfl⟩ fun _ => rfl) (hpush _))
    (.onStack room (l.onStack_buildData hlocals))) (.onStack room (l.onStack_buildData hstack))) ?_
  have hcreate : s.Goes
      (some (s.frame held ([.ofClass .data, .ofClass .data, t, .integer, .integer, .integer,
        .ofClass .string] ++ .ofClass .continuation :: stack)))
      [callStatic Interface.MethodState.create]
      (some (s.frame held (.ofClass .methodState :: .ofClass .continuation :: stack))) :=
    .plain room ⟨rfl, rfl, rfl⟩ fun index => step_callStatic index <|
      .cons rfl (.cons rfl (.cons (ht.fits _) (.cons rfl (.cons rfl (.cons rfl (.cons rfl .nil))))))
  exact .cons hcreate (.plain room ⟨rfl, rfl, rfl⟩ fun _ => rfl)

theorem goes_placeholderReturn (room : s.Room held) {result : Option FieldType}
    (hresult : s.context.result = result) :
    s.Goes (some (s.frame held stack)) (placeholderReturn result) none := by
  have hnumber : ∀ {kind : ValueKind} {push : Instruction} {t : SlotType}, push.Plain →
      (∀ index, (s.frame held stack).step s.context index push = .ok (s.frame held (t :: stack))) →
      kind.slot? = some t → result.map SlotType.ofField = some t →
      s.Goes (some (s.frame held stack)) [push, .returnValue kind] none := by
    intro kind push t hpush hstep hkind hdeclared
    have hreturn : ∀ index, (s.frame held (t :: stack)).step s.context index (.returnValue kind) =
        .ok (s.frame held stack) := by
      intro index
      have hpop : Frame.popExactly [t] (t :: stack) = .ok stack :=
        Except.bind_ok.mpr ⟨(t, stack), if_pos (decide_eq_true rfl), rfl⟩
      have hreturnValue : (s.frame held (t :: stack)).returnValue s.context kind =
          .ok (s.frame held stack) := by
        rw [Frame.returnValue, hkind, hresult]
        exact Except.bind_ok.mpr ⟨stack, hpop, if_pos hdeclared⟩
      exact hreturnValue
    exact .cons (.plain room hpush hstep) (.leave room rfl rfl hreturn (List.forall_mem_nil _))
  rcases result with _ | ⟨b | type⟩
  · have hreturn : ∀ index, (s.frame held stack).step s.context index .returnVoid =
        .ok (s.frame held stack) := fun _ => if_pos (by rw [hresult]; rfl)
    exact .leave room rfl rfl hreturn (List.forall_mem_nil _)
  · cases b <;> exact hnumber ⟨rfl, rfl, rfl⟩ (fun _ => rfl) rfl rfl
  · have hreturn : ∀ index, (s.frame held (.null :: stack)).step s.context index
        (.returnValue .object) = .ok (s.frame held stack) := by
      intro index
      have hreturnValue : (s.frame held (.null :: stack)).returnValue s.context .object =
          .ok (s.frame held stack) := by
        rw [Frame.returnValue, hresult]
        rfl
      exact hreturnValue
    exact .cons (.plain room ⟨rfl, rfl, rfl⟩ fun _ => rfl) (.leave room rfl rfl hreturn (List.forall_mem_nil _))

/-- The code of a loop over monitors, with the frames that are awaited at its labels. -/
def Loops (s : Site) (l : Layout) (loop : MonitorVariables → Label → Label → List Instruction)
    (held : Holdings) (code : List Instruction) : Prop :=
  match l.monitors with
  | some m => ∃ start stop, code = loop m start stop ∧
    s.labels start = some (s.frame (held.looping m) []) ∧
    s.labels stop = some (s.frame (held.looping m) []) ∧
    (held.looping m).Fits s.first s.size
  | none => code = []

theorem goes_increment (room : s.Room held) {x : Holding} (hmem : x ∈ held)
    (htype : x.type = .integer) (delta : Int16) :
    s.Goes (some (s.frame held stack)) [.increment x.slot delta] (some (s.frame held stack)) := by
  have hslot : x.slot < s.size := by
    have := (room.fits.bounds x hmem).2
    have := Holdings.kind_width_pos x.kind
    omega
  exact .plain room ⟨rfl, rfl, rfl⟩ fun _ =>
    Frame.of_increment hslot ((SlotTypes.beside_of_mem room.fits hmem).trans htype)

/-- The variables of a loop come into use one after the other. -/
theorem Room.looping (room : s.Room held) (hfits : (held.looping m).Fits s.first s.size) :
    Holdings.Fits s.first s.size (m.heldArray :: held) ∧ s.Room (m.heldArray :: held) ∧
      s.Room (held.looping m) := by
  have harray := hfits.subset (List.subset_cons_self ..)
  exact ⟨harray, room.cons harray, (room.cons harray).cons hfits⟩

theorem Room.awaited (room : s.Room held) {label : Label}
    (hlabel : s.labels label = some (s.frame held stack)) (hstack : ∀ t ∈ stack, t ≠ .top) :
    (s.frame held stack).Awaited s.labels s.size label :=
  ⟨_, hlabel, room.frame_suits (List.Subset.refl _) hstack⟩

/-- **Leaving the monitors.** -/
theorem goes_exitLoop (room : s.Room held) (hlasting : l.lasting ⊆ held)
    {code : List Instruction} (h : s.Loops l Layout.exitLoop held code) :
    s.Goes (some (s.frame held [])) code (some (s.frame held [])) := by
  rw [Loops] at h
  split at h
  · rename_i m hm
    obtain ⟨start, stop, rfl, hstart, hstop, hfits⟩ := h
    obtain ⟨harrayFits, room₁, room₂⟩ := room.looping hfits
    have hindex : m.heldIndex ∈ held.looping m := List.mem_cons_self ..
    have harray : m.heldArray ∈ held.looping m := List.mem_cons_of_mem _ (List.mem_cons_self ..)
    have hempty : ∀ t ∈ ([] : List SlotType), t ≠ .top := nofun
    refine .cons (.load room (hlasting (l.lockState_lasting hm))) <|
      .cons (.plain room ⟨rfl, rfl, rfl⟩ fun _ => rfl) <| .cons (.hold room harrayFits hempty) <|
      .cons (.load room₁ (List.mem_cons_self ..)) <| .cons (.plain room₁ ⟨rfl, rfl, rfl⟩ fun _ => rfl) <|
      .cons (.hold room₁ hfits hempty) <| .cons (.pass room₂ hstart hempty) <|
      .cons (.load room₂ hindex) <| .cons (.branch room₂ rfl rfl (fun _ => rfl) ?_) <|
      .cons (goes_increment room₂ hindex rfl _) <| .cons (.load room₂ harray) <|
      .cons (.load room₂ hindex) <| .cons (.plain room₂ ⟨rfl, rfl, rfl⟩ fun _ => rfl) <|
      .cons (.plain room₂ ⟨rfl, rfl, rfl⟩ fun _ => rfl) <| .cons (.goto room₂ (room₂.awaited hstart hempty)) <|
      .cons (.arrive room₂ hstop nofun) (.forget room₂ ?_ hempty)
    · exact fun _ ho => List.mem_singleton.mp ho ▸ room₂.awaited hstop hempty
    · exact fun x hx => List.mem_cons_of_mem _ (List.mem_cons_of_mem _ hx)
  · subst h
    exact .nil

/-- **Saving.** -/
theorem goes_save (room : s.Room held) (hlasting : l.lasting ⊆ held) {p : SuspendPoint}
    {leases : List (Option Lease)}
    (hlocals : ∀ value ∈ p.savedLocals, Storable s.context ((s.types held).locals s.size) value)
    (hstack : ∀ value ∈ savedStack p.stackToSave leases,
      Storable s.context ((s.types held).locals s.size) value)
    {exits : List Instruction} (hexits : s.Loops l Layout.exitLoop held exits)
    (hresult : s.context.result = l.plan.method.descriptor.result) :
    s.Goes (some (s.frame held [])) (l.save p leases exits) none :=
  .append (.append (.append (goes_pushState room hlasting hlocals hstack)
    (.onStack room l.onStack_commit)) (goes_exitLoop room hlasting hexits))
    (goes_placeholderReturn room hresult)

/-! ## Recording monitors -/

/-- Before a monitor instruction its object is put into a variable. -/
theorem goes_keepMonitor (room : s.Room held) {t : SlotType} (ht : t.IsObject)
    (hfits : Holdings.Fits s.first s.size (m.monitor.holds t :: held))
    (hstack : ∀ t ∈ stack, t ≠ .top) :
    s.Goes (some (s.frame held (t :: stack))) [.stack .dup, m.monitor.store]
      (some (s.frame (m.monitor.holds t :: held) (t :: stack))) := by
  have hdup : ∀ index, (s.frame held (t :: stack)).step s.context index (.stack .dup) =
      .ok (s.frame held (t :: t :: stack)) := by
    intro index
    cases t with
    | null | object => rfl
    | _ => cases ht
  have hne : t ≠ .top := by
    rintro rfl
    cases ht
  exact .cons (.plain room ⟨rfl, rfl, rfl⟩ hdup)
    (.hold (x := m.monitor.holds t) room hfits (List.forall_mem_cons.mpr ⟨hne, hstack⟩))

/-- Afterwards the change is recorded. -/
theorem goes_record (room : s.Room held) (hlasting : l.lasting ⊆ held) (hm : l.monitors = some m)
    {t : SlotType} (ht : t.IsObject) (hmonitor : m.monitor.holds t ∈ held) {record : MethodRef}
    (hrecord : record = Interface.LockState.enter ∨ record = Interface.LockState.exit) :
    s.Goes (some (s.frame held stack)) [m.lockState.load, m.monitor.load, callVirtual record]
      (some (s.frame held stack)) := by
  have hcall : ∀ index, (s.frame held (t :: .ofClass .lockState :: stack)).step s.context index
      (callVirtual record) = .ok (s.frame held stack) := by
    intro index
    rcases hrecord with rfl | rfl <;> cases t with
      | null | object => rfl
      | _ => cases ht
  exact .cons (.load room (hlasting (l.lockState_lasting hm))) <| .cons (.load room hmonitor) <|
    .plain room ⟨rfl, rfl, rfl⟩ hcall

end Site

end Resumption
