import Resumption.Proofs.Machine.Effects
import Resumption.Proofs.Machine.Runs

/-!
# Paths through a body

A path is straight runs joined by jumps. An activation on it is a base that was **placed**
(`Activation.placed`): given a stack and the index of an instruction.

* **`Reaches.straight`**: a straight run of the instructions that stand there. Instructions leave the
  index alone, whatever the methods do that they call.
* **`Reaches.stores`** and **`Reaches.block`**: the same for blocks of generated code.
* **`Reaches.label`**: a step over a label.
* **`Reaches.goto`**, **`Reaches.ifInt`**, **`Reaches.ifZero`** and **`Reaches.tableSwitch`**: jumps.
* **`Body.Returns`**: a path that ends with the method returning.
-/

namespace Resumption

namespace Activation

/-- The activation at an instruction, with another stack. -/
def placed (a : Activation) (stack : List Value) (index : Nat) : Activation :=
  { a with stack, index }

variable (a : Activation) (s t : List Value) (n k : Nat)

@[simp] theorem placed_stack : (a.placed s n).stack = s := rfl

@[simp] theorem placed_index : (a.placed s n).index = n := rfl

@[simp] theorem placed_valueAt (slot : Nat) : (a.placed s n).valueAt slot = a.valueAt slot := rfl

@[simp] theorem placed_moved : (a.placed s k).moved t n = a.placed t (k + n) := rfl

@[simp] theorem moved_placed : (a.moved s n).placed t k = a.placed t k := rfl

@[simp] theorem placed_placed : (a.placed s n).placed t k = a.placed t k := rfl

@[simp] theorem placed_storeAll (cells : List Cell) :
    (a.placed s n).storeAll cells = (a.storeAll cells).placed s n := by
  induction cells generalizing a with
  | nil => rfl
  | cons c cells ih =>
    rw [storeAll_cons, storeAll_cons, ← ih]
    rfl

end Activation

namespace Step

variable {default : Label} {targets : List Label}

/-- A jump table that starts with zero. -/
theorem tableTarget_ofNat {i : Nat} (hi : i < 2 ^ 31) :
    tableTarget 0 default targets (Int32.ofNat i) = targets.getD i default := by
  have hint : (Int32.ofNat i).toInt = i := Int32.toInt_ofNat_of_lt hi
  have hzero : (0 : Int32).toInt = 0 := rfl
  rw [tableTarget, hint, hzero, if_pos (Int.natCast_nonneg i), Int.sub_zero, Int.toNat_natCast]

/-- A number that the table does not have. -/
theorem tableTarget_outside {i : Int32} (h : ¬ (0 ≤ i.toInt ∧ i.toInt < targets.length)) :
    tableTarget 0 default targets i = default := by
  have hzero : (0 : Int32).toInt = 0 := rfl
  rw [tableTarget, hzero, Int.sub_zero]
  split
  · exact List.getD_eq_default _ _ (by omega)
  · rfl

end Step

namespace Body

variable {run : MethodRunner} {callees : Callees} {body : Body} {a b : Activation}
  {s : List Value} {k : Nat} {m m' : Machine}

/-! ## Comparisons that do not jump -/

theorem straight_ifInt {comparison : Comparison} {i j : Int32} {target : Label}
    {rest : List Instruction} {n : Nat}
    (h : comparison.holds (compare i.toInt j.toInt) = false) :
    straight callees (.ifInt comparison target :: rest) (a.moved (.int j :: .int i :: s) n) m =
      straight callees rest (a.moved s (n + 1)) m := by
  refine straight_cons (b := { a.moved s n with stack := s }) ?_
  simp only [Step.execute, Step.popInt, Step.pop, bind, StateT.bind, get, getThe, MonadStateOf.get,
    StateT.get, EStateM.bind, EStateM.pure, pure, StateT.pure, set, MonadStateOf.set, StateT.set,
    Activation.moved, Step.jumpIf, h]
  rfl

theorem straight_ifZero {comparison : Comparison} {i : Int32} {target : Label}
    {rest : List Instruction} {n : Nat} (h : comparison.holds (compare i.toInt 0) = false) :
    straight callees (.ifZero comparison target :: rest) (a.moved (.int i :: s) n) m =
      straight callees rest (a.moved s (n + 1)) m := by
  refine straight_cons (b := { a.moved s n with stack := s }) ?_
  simp only [Step.execute, Step.popInt, Step.pop, bind, StateT.bind, get, getThe, MonadStateOf.get,
    StateT.get, EStateM.bind, EStateM.pure, pure, StateT.pure, set, MonadStateOf.set, StateT.set,
    Activation.moved, Step.jumpIf, h]
  rfl

/-! ## Paths -/

/-- Do methods that are run keep what every run keeps? -/
abbrev Plain (run : MethodRunner) : Prop := ∀ natives, run.Steady .none natives

theorem plain_runMethod (limit depth : Nat) : Plain (runMethod limit depth) := fun natives =>
  runMethod_steady (Discipline.none_kept natives) limit depth

/-- An instruction that goes on to the next one leaves the index to that. -/
theorem index_execute (hrun : Plain run) {i : Instruction}
    (h : Step.execute (Run.callees run) i a m = .ok (.next, b) m') : b.index = a.index := by
  have hsteady := Step.execute_steady (P := False) (Run.callees_steady (hrun _)) i
    (fun hp => hp.elim) a m rfl
  rw [Step.SteadyAt, h] at hsteady
  exact hsteady.1

namespace Reaches

/-- A straight run of the instructions that stand at an index. -/
theorem straight (hrun : Plain run) {is : List Instruction} (hat : body.Has k is)
    (h : straight (Run.callees run) is (a.placed s k) m = .ok b m') :
    Reaches (Run.callees run) body (a.placed s k) m b m' :=
  .of_straight hat h fun _ _ _ _ _ _ hexec => index_execute hrun hexec

/-- A block of code that stores values into locals. -/
theorem stores (hrun : Plain run) {is : List Instruction} {cells : List Cell} {t : List Value}
    (hat : body.Has k is)
    (h : Body.straight (Run.callees run) is ((a.placed s k).moved s 0) m =
      .ok (((a.placed s k).storeAll cells).moved t (0 + is.length)) m') :
    Reaches (Run.callees run) body (a.placed s k) m
      ((a.storeAll cells).placed t (k + is.length)) m' := by
  rw [Activation.placed_storeAll, Activation.placed_moved, Nat.zero_add] at h
  exact .straight hrun hat h

/-- A block of code that stores nothing. -/
theorem block (hrun : Plain run) {is : List Instruction} {t : List Value} (hat : body.Has k is)
    (h : Body.straight (Run.callees run) is ((a.placed s k).moved s 0) m =
      .ok ((a.placed s k).moved t (0 + is.length)) m') :
    Reaches (Run.callees run) body (a.placed s k) m (a.placed t (k + is.length)) m' := by
  rw [Activation.placed_moved, Nat.zero_add] at h
  exact .straight hrun hat h

variable {l : Label} {target : Nat} {rest : List Instruction}

/-- A step over a label. -/
theorem label (hat : body.Has k (.label l :: rest)) :
    Reaches callees body (a.placed s k) m (a.placed s (k + 1)) m :=
  .single (advance_next (b := a.placed s k) hat.getElem? rfl)

theorem goto (hat : body.Has k (.goto l :: rest)) (htarget : body.positions.find l = .ok target) :
    Reaches callees body (a.placed s k) m (a.placed s target) m :=
  .single (advance_jump (b := a.placed s k) hat.getElem? rfl htarget)

theorem ifInt {comparison : Comparison} {i j : Int32}
    (hat : body.Has k (.ifInt comparison l :: rest))
    (htarget : body.positions.find l = .ok target)
    (h : comparison.holds (compare i.toInt j.toInt) = true) :
    Reaches callees body (a.placed (.int j :: .int i :: s) k) m (a.placed s target) m := by
  refine .single (advance_jump (b := a.placed s k) hat.getElem? ?_ htarget)
  simp only [Step.execute, Step.popInt, Step.pop, bind, StateT.bind, get, getThe, MonadStateOf.get,
    StateT.get, EStateM.bind, EStateM.pure, pure, StateT.pure, set, MonadStateOf.set, StateT.set,
    Activation.placed, Step.jumpIf, h, if_true]

theorem ifZero {comparison : Comparison} {i : Int32}
    (hat : body.Has k (.ifZero comparison l :: rest))
    (htarget : body.positions.find l = .ok target)
    (h : comparison.holds (compare i.toInt 0) = true) :
    Reaches callees body (a.placed (.int i :: s) k) m (a.placed s target) m := by
  refine .single (advance_jump (b := a.placed s k) hat.getElem? ?_ htarget)
  simp only [Step.execute, Step.popInt, Step.pop, bind, StateT.bind, get, getThe, MonadStateOf.get,
    StateT.get, EStateM.bind, EStateM.pure, pure, StateT.pure, set, MonadStateOf.set, StateT.set,
    Activation.placed, Step.jumpIf, h, if_true]

theorem tableSwitch {low i : Int32} {default : Label} {targets : List Label}
    (hat : body.Has k (.tableSwitch low default targets :: rest))
    (htarget : body.positions.find (Step.tableTarget low default targets i) = .ok target) :
    Reaches callees body (a.placed (.int i :: s) k) m (a.placed s target) m := by
  refine .single (advance_jump (b := a.placed s k) hat.getElem? ?_ htarget)
  simp only [Step.execute, Step.popInt, Step.pop, bind, StateT.bind, get, getThe, MonadStateOf.get,
    StateT.get, EStateM.bind, EStateM.pure, pure, StateT.pure, set, MonadStateOf.set, StateT.set,
    Activation.placed]

end Reaches

/-- A path that ends with the method returning. -/
def Returns (callees : Callees) (body : Body) (a : Activation) (m : Machine) (v : Option Value)
    (m' : Machine) : Prop :=
  ∃ b m'', Reaches callees body a m b m'' ∧ body.advance callees b m'' = .ok (.return v) m'

theorem Reaches.returns {v : Option Value} {m'' : Machine} (h : Reaches callees body a m b m')
    (hreturns : Returns callees body b m' v m'') : Returns callees body a m v m'' := by
  obtain ⟨c, m₁, hreaches, hadvance⟩ := hreturns
  exact ⟨c, m₁, h.trans hreaches, hadvance⟩

/-- A method that is left with an exception does not return. -/
theorem not_returns_of_exception {v : Option Value} {limit steps : Nat} {r : Ref}
    {m₁ m₂ : Machine} (h : body.runFor callees limit steps a m = .error (.exception r) m₁) :
    ¬ Returns callees body a m v m₂ := by
  rintro ⟨b, m'', hreaches, hadvance⟩
  induction hreaches generalizing steps with
  | refl =>
    cases steps with
    | zero => cases h
    | succ steps =>
      rw [runFor_succ, hadvance] at h
      cases h
  | step first _ ih =>
    cases steps with
    | zero => cases h
    | succ steps =>
      rw [runFor_succ, first] at h
      exact ih h hadvance

end Body

end Resumption
