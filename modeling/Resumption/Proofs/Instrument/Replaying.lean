import Resumption.Proofs.Instrument.Monitors

/-!
# Replaying the monitors of activations

The machine keeps one entry for each monitor, where it was first entered, with a count; a lock state
keeps one entry for each time that a monitor was entered. An activation that enters and leaves
monitors records it in its lock state.

* **`exit?_enter`** and **`exit?_enter_of_ne`**: leaving a monitor undoes entering it last, and
  passes entering another one.
* **`exit?_enterAll`**: so leaving a monitor undoes its most recent entry, wherever that is.
* **`perform_replays`** is the step and **`forM_perform_replays`** the run: the machine always holds
  what it held in the beginning, with the recorded monitors entered in order.
* **`mapM_activation_replays`**: so what the activations of a call stack recorded can be left from
  the innermost outwards and entered again from the outermost inwards.
* **`straight_recordMonitor`**: the code that is made of a monitor instruction does such a step.
-/

namespace Resumption

namespace Monitors

variable {m : Monitors} {r s : Ref}

/-- Was each monitor that is held entered at least once? It is so for the empty table, and both
entering and leaving keep it. -/
def Counted (m : Monitors) : Prop := ∀ e ∈ m, 0 < e.2

instance (m : Monitors) : Decidable m.Counted := inferInstanceAs (Decidable (∀ e ∈ m, 0 < e.2))

theorem Counted.empty : Counted [] := nofun

theorem Counted.enter (h : m.Counted) (r : Ref) : (m.enter r).Counted := by
  induction m with
  | nil => exact List.forall_mem_singleton.mpr Nat.one_pos
  | cons e m ih =>
    obtain ⟨hfirst, hrest⟩ := List.forall_mem_cons.mp h
    rw [Monitors.enter]
    split
    · exact List.forall_mem_cons.mpr ⟨Nat.succ_pos _, hrest⟩
    · exact List.forall_mem_cons.mpr ⟨hfirst, ih hrest⟩

theorem Counted.exit {m' : Monitors} (h : m.Counted) (hexit : m.exit? r = some m') :
    m'.Counted := by
  induction m generalizing m' with
  | nil => cases hexit
  | cons e m ih =>
    obtain ⟨hfirst, hrest⟩ := List.forall_mem_cons.mp h
    rw [exit?] at hexit
    split at hexit
    · cases hexit
      split
      · exact hrest
      · exact List.forall_mem_cons.mpr ⟨by simp only at hfirst ⊢; omega, hrest⟩
    · obtain ⟨left, hleft, rfl⟩ := Option.map_eq_some_iff.mp hexit
      exact List.forall_mem_cons.mpr ⟨hfirst, ih hrest hleft⟩

theorem Counted.enterAll (h : m.Counted) (monitors : List Ref) : (m.enterAll monitors).Counted := by
  induction monitors generalizing m with
  | nil => exact h
  | cons r monitors ih => exact ih (h.enter r)

/-- Leaving a monitor undoes entering it. -/
theorem exit?_enter (h : m.Counted) (r : Ref) : (m.enter r).exit? r = some m := by
  induction m with
  | nil => simp [enter, exit?]
  | cons e m ih =>
    obtain ⟨hfirst, hrest⟩ := List.forall_mem_cons.mp h
    obtain ⟨held, count⟩ := e
    rw [enter]
    split
    · rename_i heq
      have hmore : count + 1 ≠ 1 := by simp only at hfirst; omega
      simp only [exit?, heq, if_true, hmore, if_false, Nat.add_sub_cancel]
    · rename_i hne
      simp only [exit?, hne, if_false, ih hrest, Option.map_some]

/-- Leaving a monitor passes entering another one. -/
theorem exit?_enter_of_ne (hne : r ≠ s) : (m.enter s).exit? r = (m.exit? r).map (enter · s) := by
  induction m with
  | nil => simp [enter, exit?, Ne.symm hne]
  | cons e m ih =>
    obtain ⟨held, count⟩ := e
    rw [enter]
    split
    · rename_i heq
      subst heq
      simp only [exit?, Ne.symm hne, if_false]
      cases exit? m r <;> simp [enter]
    · rename_i hother
      simp only [exit?]
      split
      · split <;> simp [enter, hother]
      · rw [ih]
        cases exit? m r <;> simp [enter, hother]

theorem enterAll_append (monitors more : List Ref) :
    m.enterAll (monitors ++ more) = (m.enterAll monitors).enterAll more := List.foldl_append

/-- **Leaving a recorded monitor** undoes its most recent entry. The monitors are given in the order
of leaving, most recent first. -/
theorem exit?_enterAll (h : m.Counted) {monitors : List Ref} (hr : r ∈ monitors) :
    (m.enterAll monitors.reverse).exit? r = some (m.enterAll (monitors.erase r).reverse) := by
  induction monitors with
  | nil => cases hr
  | cons s monitors ih =>
    rw [List.reverse_cons, enterAll_append]
    show ((m.enterAll monitors.reverse).enter s).exit? r = _
    by_cases hsame : s = r
    · subst hsame
      rw [exit?_enter (h.enterAll _), List.erase_cons_head]
    · have hr' : r ∈ monitors := (List.mem_cons.mp hr).resolve_left (Ne.symm hsame)
      rw [exit?_enter_of_ne (Ne.symm hsame), ih hr', List.erase_cons_tail (by simpa using hsame),
        List.reverse_cons, enterAll_append]
      rfl

/-- All that was entered can be left again, most recent first. -/
theorem leave?_enterAll (h : m.Counted) (monitors : List Ref) :
    (m.enterAll monitors).leave? monitors.reverse = some m := by
  induction monitors generalizing m with
  | nil => rfl
  | cons r monitors ih =>
    have hrest : monitors.reverse.foldlM exit? ((m.enter r).enterAll monitors) =
        some (m.enter r) := ih (h.enter r)
    rw [leave?, List.reverse_cons, List.foldlM_append]
    show (monitors.reverse.foldlM exit? ((m.enter r).enterAll monitors)) >>= _ = some m
    rw [hrest]
    show (m.enter r).exit? r >>= pure = some m
    rw [exit?_enter h]
    rfl

end Monitors

/-! ## The machine -/

namespace Run

variable {m : Machine} {r : Ref}

theorem enterMonitor_eq : enterMonitor r m = .ok () (m.holding (m.monitors.enter r)) := rfl

theorem exitMonitor_of_some {monitors : Monitors} (h : m.monitors.exit? r = some monitors) :
    exitMonitor r m = .ok () (m.holding monitors) := by
  simp only [exitMonitor, bind, EStateM.bind, get, getThe, MonadStateOf.get, EStateM.get, h]
  rfl

/-- A computation after one that ends well. -/
theorem bind_of_ok {α β : Type} {x : Run α} {f : α → Run β} {a : α} {m' : Machine}
    (h : x m = .ok a m') : (x >>= f) m = f a m' := by
  simp only [bind, EStateM.bind, h]

theorem forM_enterMonitor (monitors : List Ref) :
    monitors.forM enterMonitor m = .ok () (m.holding (m.monitors.enterAll monitors)) := by
  induction monitors generalizing m with
  | nil => rfl
  | cons r monitors ih => exact (bind_of_ok enterMonitor_eq).trans ih

theorem forM_exitMonitor {monitors : List Ref} {left : Monitors}
    (h : m.monitors.leave? monitors = some left) :
    monitors.forM exitMonitor m = .ok () (m.holding left) := by
  induction monitors generalizing m with
  | nil =>
    cases h
    rfl
  | cons r monitors ih =>
    rw [Monitors.leave?, List.foldlM_cons] at h
    obtain ⟨next, hnext, hrest⟩ := Option.bind_eq_some_iff.mp h
    exact (bind_of_ok (exitMonitor_of_some hnext)).trans (ih hrest)

end Run

theorem Native.run_enterLock {m : Machine} {lock r : Ref} {l : LockState Ref}
    (h : m.object? lock = some (.lockState l)) :
    run [.ref lock, .ref r] .enterLock m = .ok none (m.put lock (.lockState (l.enter r))) := by
  simp only [run, Run.argument, Run.referred, bind, EStateM.bind, List.getElem?_cons_zero,
    List.getElem?_cons_succ, pure, EStateM.pure, Run.lockStateAt_of_some h, Run.setObject_eq]

theorem Native.run_exitLock {m : Machine} {lock r : Ref} {l : LockState Ref}
    (h : m.object? lock = some (.lockState l)) :
    run [.ref lock, .ref r] .exitLock m =
      .ok none (m.put lock (.lockState ((l.exit? r).getD l))) := by
  simp only [run, Run.argument, Run.referred, bind, EStateM.bind, List.getElem?_cons_zero,
    List.getElem?_cons_succ, pure, EStateM.pure, Run.lockStateAt_of_some h, Run.setObject_eq]

/-! ## Activations -/

/-- What an activation does with a monitor. -/
inductive MonitorAction where
  /-- enters a monitor -/
  | enter (monitor : Ref)
  /-- exits a monitor -/
  | exit (monitor : Ref)
deriving DecidableEq, Repr

namespace MonitorAction

/-- The lock state afterwards. -/
def record (l : LockState Ref) : MonitorAction → LockState Ref
  | enter r => l.enter r
  | exit r => (l.exit? r).getD l

/-- The machine does it, and the lock state `lock` records it. -/
def perform (lock : Ref) : MonitorAction → Run Unit
  | enter r => do
    Run.enterMonitor r
    let _ ← Native.run [.ref lock, .ref r] .enterLock
  | exit r => do
    Run.exitMonitor r
    let _ ← Native.run [.ref lock, .ref r] .exitLock

/-- Does each exit name a monitor that the lock state then lists? -/
def Balanced : LockState Ref → List MonitorAction → Prop
  | _, [] => True
  | l, enter r :: actions => Balanced (l.enter r) actions
  | l, exit r :: actions => r ∈ l.monitors ∧ Balanced (record l (exit r)) actions

instance decidableBalanced : (l : LockState Ref) → (actions : List MonitorAction) →
    Decidable (Balanced l actions)
  | _, [] => isTrue trivial
  | l, enter r :: actions => decidableBalanced (l.enter r) actions
  | l, exit r :: actions =>
    haveI := decidableBalanced (record l (exit r)) actions
    inferInstanceAs (Decidable (r ∈ l.monitors ∧ Balanced (record l (exit r)) actions))

/-- What the lock state of an activation is after its actions. -/
def recorded (actions : List MonitorAction) : LockState Ref := actions.foldl record .empty

/-- An activation with these actions, from making its lock state on. -/
def activation (actions : List MonitorAction) : Run Ref := do
  let lock ← Run.alloc (.lockState .empty)
  actions.forM (perform lock)
  return lock

/-- Leaves the monitors that a lock state lists, most recent first. -/
def leaveRecorded (lock : Ref) : Run Unit := do
  let (_, l) ← Run.lockStateAt (.ref lock)
  l.monitors.reverse.forM Run.exitMonitor

/-- Enters the monitors that a lock state lists, oldest first. -/
def enterRecorded (lock : Ref) : Run Unit := do
  let (_, l) ← Run.lockStateAt (.ref lock)
  l.monitors.forM Run.enterMonitor

end MonitorAction

/-- The machine with a lock state at `lock`, holding the monitors of a base and on top of them those
that the lock state lists. -/
def Machine.replayed (m : Machine) (base : Monitors) (lock : Ref) (l : LockState Ref) : Machine :=
  (m.put lock (.lockState l)).holding (base.enterAll l.monitors)

namespace Machine

variable {m : Machine} {base : Monitors} {lock : Ref} {l : LockState Ref}

theorem object?_replayed {o : HeapObject} (h : m.object? lock = some o) :
    (m.replayed base lock l).object? lock = some (.lockState l) :=
  object?_put_self h

theorem object?_replayed_of_ne {r : Ref} (h : r ≠ lock) :
    (m.replayed base lock l).object? r = m.object? r :=
  object?_put_of_ne h

/-- The lock state and the monitors may change together. -/
theorem replayed_change (l' : LockState Ref) :
    ((m.replayed base lock l).holding (base.enterAll l'.monitors)).put lock (.lockState l') =
      m.replayed base lock l' := by
  simp only [replayed, holding, put, Array.setIfInBounds_setIfInBounds]

theorem put_self {r : Ref} {o : HeapObject} (h : m.object? r = some o) : m.put r o = m := by
  have hheap : m.heap.setIfInBounds r.index o = m.heap := by
    obtain ⟨hlt, rfl⟩ := Array.getElem?_eq_some_iff.mp h
    rw [Array.setIfInBounds_def, dif_pos hlt, Array.set_getElem_self]
  rw [put, hheap]

/-- A new lock state lists nothing. -/
theorem replayed_alloc (m : Machine) :
    (m.alloc (.lockState .empty)).2.replayed m.monitors (m.alloc (.lockState .empty)).1 .empty =
      (m.alloc (.lockState .empty)).2 := by
  rw [replayed, put_self (object?_alloc_self m (.lockState .empty))]
  rfl

end Machine

namespace MonitorAction

variable {m : Machine} {lock : Ref} {l : LockState Ref} {o : HeapObject} {base : Monitors}
  {actions : List MonitorAction}

theorem enter_replayed (r : Ref) : (m.replayed base lock l).monitors.enter r =
    base.enterAll (record l (enter r)).monitors :=
  (Monitors.enterAll_append l.monitors [r]).symm

theorem exit?_replayed {r : Ref} (hbase : base.Counted) (hmem : r ∈ l.monitors) :
    (m.replayed base lock l).monitors.exit? r =
      some (base.enterAll (record l (exit r)).monitors) := by
  have hexit : record l (exit r) = ⟨(l.monitors.reverse.erase r).reverse⟩ := by
    rw [record, LockState.exit?, if_pos (List.contains_iff_mem.mpr hmem)]
    rfl
  rw [hexit, ← Monitors.exit?_enterAll hbase (List.mem_reverse.mpr hmem), List.reverse_reverse]
  rfl

/-- **One action**: the machine is the one on which what is recorded was replayed, and is so
afterwards. -/
theorem perform_replays {action : MonitorAction} (hbase : base.Counted)
    (hlock : m.object? lock = some o) (hbalanced : Balanced l (action :: actions)) :
    action.perform lock (m.replayed base lock l) =
        .ok () (m.replayed base lock (record l action)) ∧
      Balanced (record l action) actions := by
  have hobject : (m.replayed base lock l).object? lock = some (.lockState l) :=
    Machine.object?_replayed hlock
  rw [← Machine.replayed_change (l := l) (record l action)]
  cases action with
  | enter r =>
    rw [← show (m.replayed base lock l).monitors.enter r = _ from enter_replayed r]
    exact ⟨(Run.bind_of_ok Run.enterMonitor_eq).trans
      (Run.bind_of_ok (Native.run_enterLock (m := (m.replayed base lock l).holding _) hobject)),
      hbalanced⟩
  | exit r =>
    obtain ⟨hmem, hrest⟩ := hbalanced
    exact ⟨(Run.bind_of_ok (Run.exitMonitor_of_some (exit?_replayed hbase hmem))).trans
      (Run.bind_of_ok (Native.run_exitLock (m := (m.replayed base lock l).holding _) hobject)),
      hrest⟩

/-- **All actions** of an activation. -/
theorem forM_perform_replays (hbase : base.Counted) (hlock : m.object? lock = some o)
    (hbalanced : Balanced l actions) :
    actions.forM (perform lock) (m.replayed base lock l) =
      .ok () (m.replayed base lock (actions.foldl record l)) := by
  induction actions generalizing l with
  | nil => rfl
  | cons action actions ih =>
    obtain ⟨hperform, hrest⟩ := perform_replays hbase hlock hbalanced
    exact (Run.bind_of_ok hperform).trans (ih hrest)

/-- An activation leaves the machine as replaying its lock state does. -/
theorem activation_eq (hcounted : m.monitors.Counted) (hbalanced : Balanced .empty actions) :
    activation actions m = .ok (m.alloc (.lockState .empty)).1
      ((m.alloc (.lockState .empty)).2.replayed m.monitors (m.alloc (.lockState .empty)).1
        (recorded actions)) := by
  have hperform := forM_perform_replays hcounted (Machine.object?_alloc_self m (.lockState .empty))
    hbalanced
  rw [Machine.replayed_alloc] at hperform
  show (actions.forM (perform (m.alloc (.lockState .empty)).1) >>= _)
    (m.alloc (.lockState .empty)).2 = _
  exact (Run.bind_of_ok hperform)

/-! ## Call stacks -/

/-- Are the lock states at these places? -/
def Lists (m : Machine) (locks : List Ref) (states : List (LockState Ref)) : Prop :=
  List.Forall₂ (fun lock l => m.object? lock = some (.lockState l)) locks states

/-- The monitors that lock states list, one after the other. -/
def listed (states : List (LockState Ref)) : List Ref := states.flatMap (·.monitors)

variable {locks : List Ref} {states : List (LockState Ref)}

theorem enterRecorded_eq (hlock : m.object? lock = some (.lockState l)) :
    enterRecorded lock m = .ok () (m.holding (m.monitors.enterAll l.monitors)) :=
  (Run.bind_of_ok (Run.lockStateAt_of_some hlock)).trans (Run.forM_enterMonitor l.monitors)

theorem leaveRecorded_eq (hbase : base.Counted) (hlock : m.object? lock = some (.lockState l))
    (hheld : m.monitors = base.enterAll l.monitors) :
    leaveRecorded lock m = .ok () (m.holding base) :=
  (Run.bind_of_ok (Run.lockStateAt_of_some hlock)).trans
    (Run.forM_exitMonitor (hheld ▸ Monitors.leave?_enterAll hbase l.monitors))

theorem forM_enterRecorded (h : Lists m locks states) :
    locks.forM enterRecorded m = .ok () (m.holding (m.monitors.enterAll (listed states))) := by
  induction states generalizing locks m with
  | nil =>
    cases h
    rfl
  | cons l states ih =>
    obtain ⟨lock, locks, hlock, hlocks, rfl⟩ := List.forall₂_cons_right_iff.mp h
    rw [listed, List.flatMap_cons, Monitors.enterAll_append]
    exact (Run.bind_of_ok (enterRecorded_eq hlock)).trans
      (ih (m := m.holding (m.monitors.enterAll l.monitors)) hlocks)

theorem forM_leaveRecorded (hbase : base.Counted) (h : Lists m locks states)
    (hheld : m.monitors = base.enterAll (listed states)) :
    locks.reverse.forM leaveRecorded m = .ok () (m.holding base) := by
  induction states generalizing locks base with
  | nil =>
    cases h
    rw [← show m.monitors = base from hheld]
    rfl
  | cons l states ih =>
    obtain ⟨lock, locks, hlock, hlocks, rfl⟩ := List.forall₂_cons_right_iff.mp h
    rw [listed, List.flatMap_cons, Monitors.enterAll_append] at hheld
    have hinner := ih (hbase.enterAll l.monitors) hlocks hheld
    have houter := leaveRecorded_eq (m := m.holding (base.enterAll l.monitors)) hbase hlock rfl
    have hsplit : (lock :: locks).reverse.forM leaveRecorded =
        locks.reverse.forM leaveRecorded >>= fun _ => [lock].forM leaveRecorded := by
      rw [List.reverse_cons]
      exact List.forM_append
    rw [hsplit]
    exact (Run.bind_of_ok hinner).trans (Run.bind_of_ok houter)

/-- A call stack of activations leaves the machine as replaying all their lock states does. -/
theorem mapM_activation (hcounted : m.monitors.Counted) {chain : List (List MonitorAction)}
    (hbalanced : ∀ actions ∈ chain, Balanced .empty actions) :
    ∃ locks m', chain.mapM activation m = .ok locks m' ∧ Lists m' locks (chain.map recorded) ∧
      m'.monitors = m.monitors.enterAll (listed (chain.map recorded)) ∧
      ∀ r o, m.object? r = some o → m'.object? r = some o := by
  -- Activations nest: each starts with the monitors of those before it, and its own list is not
  -- touched by the later ones.
  induction chain generalizing m with
  | nil => exact ⟨[], m, rfl, .nil, rfl, fun _ _ => id⟩
  | cons actions chain ih =>
    obtain ⟨hfirst, hrest⟩ := List.forall_mem_cons.mp hbalanced
    have hactivation := activation_eq hcounted hfirst
    generalize hm₁ : (m.alloc (.lockState .empty)).2.replayed m.monitors
      (m.alloc (.lockState .empty)).1 (recorded actions) = m₁ at hactivation
    have hmonitors : m₁.monitors = m.monitors.enterAll (recorded actions).monitors := by
      rw [← hm₁]
      rfl
    have hlock : m₁.object? (m.alloc (.lockState .empty)).1 =
        some (.lockState (recorded actions)) := by
      rw [← hm₁]
      exact Machine.object?_replayed (Machine.object?_alloc_self m (.lockState .empty))
    have hkept : ∀ r o, m.object? r = some o → m₁.object? r = some o := fun r o ho => by
      have hne : r ≠ (m.alloc (.lockState .empty)).1 := by
        rintro rfl
        exact absurd ho (by simp [Machine.object?, Machine.alloc])
      rw [← hm₁, Machine.object?_replayed_of_ne hne]
      exact Machine.object?_alloc_of_some ho
    obtain ⟨locks, m', hchain, hlists, hheld, hkept'⟩ :=
      ih (m := m₁) (hmonitors ▸ hcounted.enterAll _) hrest
    refine ⟨_ :: locks, m', ?_, .cons (hkept' _ _ hlock) hlists, ?_,
      fun r o ho => hkept' r o (hkept r o ho)⟩
    · rw [List.mapM_cons]
      exact (Run.bind_of_ok hactivation).trans (Run.bind_of_ok hchain)
    · rw [hheld, hmonitors, ← Monitors.enterAll_append]
      rfl

/-- **Replaying**: after an activation the machine holds what it held before, with the monitors of
its lock state entered in order, and leaving those most recent first gives back what it held before.
So a call stack of activations can be suspended from the innermost outwards and loaded from the
outermost inwards, and the machine is what it was. -/
theorem activations_replay (m : Machine) (hcounted : m.monitors.Counted) :
    (∀ actions, Balanced .empty actions → ∃ lock m', activation actions m = .ok lock m' ∧
      m'.object? lock = some (.lockState (recorded actions)) ∧
      (recorded actions).monitors.forM Run.enterMonitor (m'.holding m.monitors) = .ok () m' ∧
      (recorded actions).monitors.reverse.forM Run.exitMonitor m' =
        .ok () (m'.holding m.monitors)) ∧
    ∀ chain : List (List MonitorAction), (∀ actions ∈ chain, Balanced .empty actions) →
      ∃ locks m', chain.mapM activation m = .ok locks m' ∧ Lists m' locks (chain.map recorded) ∧
        locks.reverse.forM leaveRecorded m' = .ok () (m'.holding m.monitors) ∧
        locks.forM enterRecorded (m'.holding m.monitors) = .ok () m' := by
  constructor
  · intro actions hbalanced
    refine ⟨_, _, activation_eq hcounted hbalanced,
      Machine.object?_replayed (Machine.object?_alloc_self m (.lockState .empty)), ?_, ?_⟩
    · exact Run.forM_enterMonitor (m := (Machine.replayed _ _ _ _).holding m.monitors) _
    · exact Run.forM_exitMonitor (Monitors.leave?_enterAll hcounted _)
  · intro chain hbalanced
    obtain ⟨locks, m', hchain, hlists, hheld, -⟩ := mapM_activation hcounted hbalanced
    have hloaded := forM_enterRecorded (m := m'.holding m.monitors) hlists
    rw [show (m'.holding m.monitors).monitors.enterAll _ = m'.monitors from hheld.symm] at hloaded
    exact ⟨locks, m', hchain, hlists, forM_leaveRecorded hcounted hlists hheld, hloaded⟩

/-- Two activations on a machine that holds a monitor already: both enter it again, and the outer
one leaves its monitors in another order than it entered them. -/
theorem activations_replay_reentered :
    let m := Machine.new.holding [(⟨7⟩, 1)]
    let outer := [enter ⟨7⟩, enter ⟨8⟩, enter ⟨8⟩, exit ⟨7⟩]
    let inner := [enter ⟨9⟩, enter ⟨7⟩, enter ⟨9⟩]
    m.monitors.Counted ∧ Balanced .empty outer ∧ Balanced .empty inner ∧
      ∃ locks m', [outer, inner].mapM activation m = .ok locks m' ∧
        Lists m' locks [⟨[⟨8⟩, ⟨8⟩]⟩, ⟨[⟨9⟩, ⟨7⟩, ⟨9⟩]⟩] ∧
        locks.reverse.forM leaveRecorded m' = .ok () (m'.holding m.monitors) ∧
        locks.forM enterRecorded (m'.holding m.monitors) = .ok () m' := by
  intro m outer inner
  have hcounted : m.monitors.Counted := by decide
  have houter : Balanced .empty outer := by decide
  have hinner : Balanced .empty inner := by decide
  exact ⟨hcounted, houter, hinner, (activations_replay m hcounted).2 [outer, inner]
    (List.forall_mem_cons.mpr ⟨houter, List.forall_mem_singleton.mpr hinner⟩)⟩

/-! ## The code of monitor instructions -/

/-- The instruction that acts. -/
def instruction : MonitorAction → Instruction
  | enter _ => .monitorEnter
  | exit _ => .monitorExit

/-- The method that records the action. -/
def recorder : MonitorAction → MethodRef
  | enter _ => Interface.LockState.enter
  | exit _ => Interface.LockState.exit

/-- The monitor that is entered or left. -/
def monitor : MonitorAction → Ref
  | enter r | exit r => r

open Body in
/-- The code of a monitor instruction acts on the monitor that it finds on the stack, and records it
in the lock state of the activation. -/
theorem straight_recordMonitor {run : MethodRunner} {settings : Settings} {a : Activation}
    {s : List Value} {n : Nat} {v : MonitorVariables} {rest : List Instruction}
    {action : MonitorAction} (hbase : base.Counted) (hlock : m.object? lock = some o)
    (hserves : (m.replayed base lock l).Serves settings)
    (hvariable : a.valueAt v.lockState.slot = .ref lock)
    (hne : v.lockState.slot ≠ v.monitor.slot) (hbalanced : Balanced l (action :: actions)) :
    straight (Run.callees run) (Layout.recordMonitor v action.instruction action.recorder ++ rest)
        (a.moved (.ref action.monitor :: s) n) (m.replayed base lock l) =
      straight (Run.callees run) rest
        ((a.store v.monitor.slot (.ref action.monitor)).moved s (n + 6))
        (m.replayed base lock (record l action)) := by
  have hobject : (m.replayed base lock l).object? lock = some (.lockState l) :=
    Machine.object?_replayed hlock
  have hvariable' : (a.store v.monitor.slot (.ref action.monitor)).valueAt v.lockState.slot =
      .ref lock := Activation.valueAt_store_narrow hvariable rfl rfl hne
  have hmonitor : (a.store v.monitor.slot (.ref action.monitor)).valueAt v.monitor.slot =
      .ref action.monitor := Activation.valueAt_store_self ..
  simp only [Layout.recordMonitor, Lease.load, Lease.store, List.cons_append, List.nil_append]
  rw [straight_dup rfl, straight_store, ← Machine.replayed_change (l := l) (record l action)]
  cases action with
  | enter r =>
    rw [← show (m.replayed base lock l).monitors.enter r = _ from enter_replayed r]
    refine straight_monitorEnter.trans ?_
    rw [straight_load hvariable' (by simp), straight_load hmonitor (by simp)]
    exact straight_native (m := (m.replayed base lock l).holding _)
      (hserves.standard (_, .enterLock) (by decide)) (Native.run_enterLock hobject) rfl rfl rfl
  | exit r =>
    refine (straight_monitorExit (exit?_replayed hbase hbalanced.1)).trans ?_
    rw [straight_load hvariable' (by simp), straight_load hmonitor (by simp)]
    exact straight_native (m := (m.replayed base lock l).holding _)
      (hserves.standard (_, .exitLock) (by decide)) (Native.run_exitLock hobject) rfl rfl rfl

end MonitorAction

end Resumption
