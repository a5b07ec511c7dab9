import Resumption.Proofs.Machine.Faults
import Resumption.Proofs.Machine.Straight

/-!
# Steps that leave an allocator alone

Only the methods of an allocator change its counts. So a step changes them by what it asks of others
at most: by a call, or by the initialization of a class.

* **`Activation.ask`** is what an instruction asks of others, and **`Step.execute_follows`** says that
  the counts are afterwards what the answer has left.
* **`Native.run_mild`**: natives that do not belong to an allocator are mild, as far as they can be.
-/

namespace Resumption

variable {α β : Type}

/-! ## Natives -/

/-- Does the native belong to an allocator? -/
def Native.ofAllocator : Native → Bool
  | .allocate _ | .commit | .rollback => true
  | _ => false

namespace Run.Mild

/-- Asking for an argument is mild. -/
theorem argument (arguments : List Value) (index : Nat) : Mild (Run.argument arguments index) := by
  unfold Run.argument
  split
  · exact pure _
  · exact fail nofun

theorem intArgument (arguments : List Value) (index : Nat) :
    Mild (Run.intArgument arguments index) := by
  refine bind (argument _ _) fun v => ?_
  cases v with
  | int n => exact pure n
  | _ => exact fail nofun

theorem referred (v : Value) : Mild (Run.referred v) := by
  cases v with
  | ref r => exact pure r
  | null => exact nonNull none
  | _ => exact fail nofun

theorem continuationAt (v : Value) : Mild (Run.continuationAt v) := by
  refine bind (referred v) fun r => bind (object r) fun o => ?_
  cases o with
  | continuation c => exact pure _
  | _ => exact fail nofun

theorem methodStateAt (v : Value) : Mild (Run.methodStateAt v) := by
  refine bind (referred v) fun r => bind (object r) fun o => ?_
  cases o with
  | methodState s => exact pure _
  | _ => exact fail nofun

theorem dataAt (v : Value) : Mild (Run.dataAt v) := by
  refine bind (referred v) fun r => bind (object r) fun o => ?_
  cases o with
  | data d => exact pure _
  | _ => exact fail nofun

theorem lockStateAt (v : Value) : Mild (Run.lockStateAt v) := by
  refine bind (referred v) fun r => bind (object r) fun o => ?_
  cases o with
  | lockState l => exact pure _
  | _ => exact fail nofun

theorem stringAt (r : Ref) : Mild (Run.stringAt r) := by
  refine bind (object r) fun o => ?_
  cases o with
  | string s => exact pure _
  | _ => exact fail nofun

/-- Questions to a coroutine object are mild. -/
theorem liftContinuation (x : Except ContinuationError α) : Mild (Run.liftContinuation x) := by
  cases x with
  | ok a => exact pure a
  | error e => exact fail nofun

/-- Natives that make an object are mild. -/
theorem created (o : HeapObject) : Mild (Native.created o) := bind (alloc o) fun _ => pure _

/-- Rendering a value is mild. -/
theorem render (m : Machine) (v : Value) : Mild (Run.liftRun (m.render v)) := by
  cases v with
  | ref r =>
    simp only [Machine.render]
    split
    · exact pure _
    · exact pure _
    · exact fail nofun
  | _ => exact pure _

/-- Printing is mild. -/
theorem println (arguments : List Value) : Mild (Native.run arguments .println) := by
  have hprint : ∀ line : String,
      Mild (do modify fun m => { m with output := m.output ++ line ++ "\n" }; return none :
        Run (Option Value)) := fun line => bind (modifyGet fun _ => rfl) fun _ => pure _
  simp only [Native.run]
  split
  · exact bind get fun m => bind (render m _) hprint
  · exact hprint ""

end Run.Mild

open Run (Mild)

/-- **Natives** that do not belong to an allocator. -/
theorem Native.run_mild {native : Native} (h : native.ofAllocator = false) (arguments : List Value) :
    Mild (native.run arguments) := by
  cases native with
  | getMode => exact .bind (.argument _ _) fun _ => .bind (.continuationAt _) fun _ => .pure _
  | setMode =>
    exact .bind (.intArgument _ _) fun _ => .bind (.liftContinuation _) fun _ =>
      .bind (.argument _ _) fun _ => .bind (.continuationAt _) fun _ =>
      .bind (.setObject _ _) fun _ => .pure _
  | loadNext =>
    exact .bind (.argument _ _) fun _ => .bind (.continuationAt _) fun _ =>
      .bind (.liftContinuation _) fun _ => .bind (.setObject _ _) fun _ => .pure _
  | push =>
    exact .bind (.argument _ _) fun _ => .bind (.referred _) fun _ => .bind (.argument _ _) fun _ =>
      .bind (.continuationAt _) fun _ => .bind (.setObject _ _) fun _ => .pure _
  | reset =>
    exact .bind (.argument _ _) fun _ => .bind (.continuationAt _) fun _ =>
      .bind (.setObject _ _) fun _ => .pure _
  | suspend => exact .fail nofun
  | invalidPoint => exact .bind (.newThrowable _ _) fun _ => .pure _
  | createState =>
    exact .bind (.argument _ _) fun _ => .bind (.referred _) fun _ => .bind (.stringAt _) fun _ =>
      .bind (.intArgument _ _) fun _ => .bind (.intArgument _ _) fun _ =>
      .bind (.intArgument _ _) fun _ => .bind (.argument _ _) fun _ => .bind (.argument _ _) fun _ =>
      .bind (.argument _ _) fun _ => .created _
  | stateNumber which =>
    exact .bind (.argument _ _) fun _ => .bind (.methodStateAt _) fun _ => .pure _
  | stateObject which =>
    exact .bind (.argument _ _) fun _ => .bind (.methodStateAt _) fun _ => .pure _
  | createData =>
    exact .bind (.argument _ _) fun _ => .bind (.argument _ _) fun _ => .bind (.argument _ _) fun _ =>
      .bind (.argument _ _) fun _ => .bind (.argument _ _) fun _ => .created _
  | dataArray kind => exact .bind (.argument _ _) fun _ => .bind (.dataAt _) fun _ => .pure _
  | createLocks => exact .created _
  | enterLock | exitLock =>
    exact .bind (.argument _ _) fun _ => .bind (.referred _) fun _ => .bind (.argument _ _) fun _ =>
      .bind (.lockStateAt _) fun _ => .bind (.setObject _ _) fun _ => .pure _
  | locksToArray =>
    exact .bind (.argument _ _) fun _ => .bind (.lockStateAt _) fun _ => .created _
  | println => exact .println arguments
  | recordValue =>
    exact .bind (.argument _ _) fun _ => .bind (.modifyGet fun _ => rfl) fun _ => .pure _
  | recordMonitors => exact .bind (.modifyGet fun _ => rfl) fun _ => .pure _
  | skip => exact .pure _
  | allocate _ | commit | rollback => cases h

/-! ## Computations inside of an activation -/

namespace Step

/-- The computation leaves the counts of an allocator as they are. -/
def Quiet (x : Step α) : Prop := ∀ a m, (Run.left (x a m)).pool = m.pool

namespace Quiet

/-- A value is quiet. -/
theorem pure (r : α) : Quiet (Pure.pure r) := fun _ _ => rfl

/-- One quiet computation after the other is quiet. -/
theorem bind {x : Step α} {f : α → Step β} (hx : Quiet x) (hf : ∀ r, Quiet (f r)) :
    Quiet (x >>= f) := by
  intro a m
  have hpool := hx a m
  simp only [Bind.bind, StateT.bind, EStateM.bind]
  cases hxm : x a m with
  | ok result m' =>
    rw [hxm] at hpool
    exact (hf result.1 result.2 m').trans hpool
  | error e m' =>
    rw [hxm] at hpool
    exact hpool

/-- What is mild on a machine is quiet inside of an activation. -/
theorem lift {y : Run α} (hy : Mild y) : Quiet (StateT.lift y) := by
  intro a m
  have hpool := hy.pool m
  simp only [StateT.lift, Bind.bind, EStateM.bind]
  cases hym : y m with
  | ok r m' =>
    rw [hym] at hpool
    exact hpool
  | error e m' =>
    rw [hym] at hpool
    exact hpool

theorem fault (f : CodeFault) : Quiet (Step.fault f : Step α) := fun _ _ => rfl

theorem push (v : Value) : Quiet (Step.push v) := fun _ _ => rfl

theorem pushAll (vs : List Value) : Quiet (Step.pushAll vs) := fun _ _ => rfl

theorem store (slot : Nat) (v : Value) : Quiet (Step.store slot v) := fun _ _ => rfl

/-- Going on after what is quiet is quiet. -/
theorem andNext {x : Step Unit} (hx : Quiet x) : Quiet (Step.andNext x) := bind hx fun _ => pure _

/-- What drops its result is as quiet as before. -/
theorem discard {x : Step α} (hx : Quiet x) : Quiet (Functor.discard x) := by
  rw [discard_eq_bind]
  exact bind hx fun _ => pure _

theorem pop : Quiet Step.pop := by
  intro a m
  obtain ⟨method, locals, stack, index⟩ := a
  cases stack <;> rfl

theorem popInt : Quiet Step.popInt :=
  bind pop fun v => by
    cases v with
    | int n => exact pure n
    | _ => exact fault _

theorem popLong : Quiet Step.popLong :=
  bind pop fun v => by
    cases v with
    | long n => exact pure n
    | _ => exact fault _

theorem popFloat : Quiet Step.popFloat :=
  bind pop fun v => by
    cases v with
    | float n => exact pure n
    | _ => exact fault _

theorem popDouble : Quiet Step.popDouble :=
  bind pop fun v => by
    cases v with
    | double n => exact pure n
    | _ => exact fault _

theorem popRef : Quiet Step.popRef :=
  bind pop fun v => by
    cases v with
    | ref r => exact pure _
    | null => exact pure _
    | _ => exact fault _

theorem popObject : Quiet Step.popObject := bind popRef fun _ => lift (.nonNull _)

/-- Taking words off the stack is quiet. -/
theorem popWords (words : Nat) : Quiet (Step.popWords words) := by
  induction words using Step.popWords.induct with
  | case1 => exact pure _
  | case2 =>
    refine bind pop fun v => ?_
    split
    · exact pure _
    · exact fault _
  | case3 words ih ih' =>
    refine bind pop fun v => ?_
    split
    · exact bind ih fun _ => pure _
    · exact bind ih' fun _ => pure _

theorem copyWords (top under : Nat) : Quiet (Step.copyWords top under) :=
  bind (popWords top) fun _ => bind (popWords under) fun _ => pushAll _

theorem load (slot : Nat) : Quiet (Step.load slot) := by
  intro a m
  simp only [Step.load, Bind.bind, StateT.bind, EStateM.bind, MonadState.get, getThe,
    MonadStateOf.get, StateT.get, Pure.pure, EStateM.pure]
  cases a.locals.getD slot .top <;> rfl

theorem popArguments (count : Nat) : Quiet (Step.popArguments count) := by
  intro a m
  simp only [Step.popArguments, Bind.bind, StateT.bind, EStateM.bind, MonadState.get, getThe,
    MonadStateOf.get, StateT.get, Pure.pure, EStateM.pure]
  split <;> rfl

theorem quotient (r : Option α) : Quiet (Step.quotient r) := by
  cases r with
  | some r => exact pure r
  | none => exact lift (.raise _ _)

/-- Taking counts off the stack is quiet. -/
theorem popCounts (n : Nat) (counts : List Int32) : Quiet (Step.popCounts n counts) := by
  induction n generalizing counts with
  | zero => exact pure _
  | succ n ih => exact bind popInt fun _ => ih _

theorem arith (op : ArithOp) (kind : NumericKind) : Quiet (Step.arith op kind) := by
  cases kind with
  | int => exact bind popInt fun _ => bind popInt fun _ => bind (quotient _) fun _ => push _
  | long => exact bind popLong fun _ => bind popLong fun _ => bind (quotient _) fun _ => push _
  | float => exact bind popFloat fun _ => bind popFloat fun _ => push _
  | double => exact bind popDouble fun _ => bind popDouble fun _ => push _

theorem neg (kind : NumericKind) : Quiet (Step.neg kind) := by
  cases kind with
  | int => exact bind popInt fun _ => push _
  | long => exact bind popLong fun _ => push _
  | float => exact bind popFloat fun _ => push _
  | double => exact bind popDouble fun _ => push _

theorem shift (op : ShiftOp) (kind : IntegralKind) : Quiet (Step.shift op kind) := by
  cases kind with
  | int => exact bind popInt fun _ => bind popInt fun _ => push _
  | long => exact bind popInt fun _ => bind popLong fun _ => push _

theorem bitwise (op : BitOp) (kind : IntegralKind) : Quiet (Step.bitwise op kind) := by
  cases kind with
  | int => exact bind popInt fun _ => bind popInt fun _ => push _
  | long => exact bind popLong fun _ => bind popLong fun _ => push _

theorem convert (c : Conversion) : Quiet (Step.convert c) := by
  cases c with
  | intToLong | intToFloat | intToDouble | intToByte | intToChar | intToShort =>
    exact bind popInt fun _ => push _
  | longToInt | longToFloat | longToDouble => exact bind popLong fun _ => push _
  | floatToInt | floatToLong | floatToDouble => exact bind popFloat fun _ => push _
  | doubleToInt | doubleToLong | doubleToFloat => exact bind popDouble fun _ => push _

theorem compareFloat (nan : NaNOrder) (kind : FloatKind) : Quiet (Step.compareFloat nan kind) := by
  cases kind with
  | float => exact bind popFloat fun _ => bind popFloat fun _ => push _
  | double => exact bind popDouble fun _ => bind popDouble fun _ => push _

/-- Rearranging the stack is quiet. -/
theorem rearrange (op : StackOp) : Quiet (Step.rearrange op) := by
  cases op with
  | pop => exact discard (popWords 1)
  | pop2 => exact discard (popWords 2)
  | dup | dupX1 | dupX2 | dup2 | dup2X1 | dup2X2 => exact copyWords _ _
  | swap => exact bind pop fun _ => bind pop fun _ => pushAll _

theorem increment (slot : Nat) (delta : Int16) : Quiet (Step.increment slot delta) :=
  bind (load slot) fun v => by
    cases v with
    | int n => exact store _ _
    | _ => exact fault _

end Quiet

end Step

/-! ## Instructions -/

/-- The arguments of a call: how many there are, the receiver included. -/
def MethodRef.argumentCount (ref : MethodRef) (kind : CallKind) : Nat :=
  ref.descriptor.parameters.length + if kind = .static then 0 else 1

/-- What an instruction asks of others, and what comes back. -/
def Activation.ask {M : Type → Type} [Monad M]
    (call : CallKind → MethodRef → List Value → M (Option Value)) (prepare : ClassName → M Unit)
    (a : Activation) : Instruction → M (Option Value)
  | .invoke kind ref =>
    if ref.argumentCount kind ≤ a.stack.length then
      call kind ref (a.stack.take (ref.argumentCount kind)).reverse
    else return none
  | .getStatic field | .putStatic field => do
    prepare field.owner
    return none
  | .new owner => do
    prepare owner
    return none
  | _ => return none

/-- The answer to what an instruction asks. -/
def Callees.answer (callees : Callees) (a : Activation) (i : Instruction) : Run (Option Value) :=
  a.ask callees.call callees.prepare i

namespace Step

variable {callees : Callees} {a : Activation} {m : Machine}

/-- What a step ends with that goes on with what others have left, and that ends with them if they
have no answer. -/
structure Follows (answer : Run (Option Value)) (x : Step Progress) (a : Activation) (m : Machine) :
    Prop where
  /-- the allocator is as it is after the answer -/
  quiet : ∀ v m', answer m = .ok v m' → (Run.left (x a m)).pool = m'.pool
  /-- what fails is the answer -/
  ends : ∀ e m', answer m = .error e m' → x a m = .error e m'

/-- A quiet step asks nothing. -/
theorem follows_of_quiet {x : Step Progress} (hx : Quiet x) : Follows (pure none) x a m where
  quiet := fun v m' h => by
    cases h
    exact hx a m
  ends := fun e m' h => by cases h

/-- An instruction that goes on quietly after it prepared a class. -/
theorem follows_prepare {owner : ClassName} {x : Step Unit} (hx : Quiet x) :
    Follows (do callees.prepare owner; return none)
      (andNext (do lift (callees.prepare owner); x)) a m := by
  refine ⟨fun v m' h => ?_, fun e m' h => ?_⟩
  · simp only [bind, EStateM.bind] at h
    split at h
    · rename_i hprepare
      cases h
      have hpool := hx a m'
      simp only [andNext, bind, StateT.bind, EStateM.bind, lift, StateT.lift, pure, EStateM.pure,
        hprepare]
      cases hxm : x a m' with
      | ok result m'' =>
        rw [hxm] at hpool
        exact hpool
      | error e m'' =>
        rw [hxm] at hpool
        exact hpool
    · cases h
  · simp only [bind, EStateM.bind] at h
    split at h
    · cases h
    · rename_i hprepare
      cases h
      simp only [andNext, bind, StateT.bind, EStateM.bind, lift, StateT.lift, hprepare]

/-- **What an instruction does beyond what it asks** leaves the counts of an allocator alone. -/
theorem execute_follows (callees : Callees) (i : Instruction) (a : Activation) (m : Machine) :
    Follows (callees.answer a i) (execute callees i) a m := by
  cases i with
  -- only calls and what initializes a class ask others; everything else is quiet
  | invoke kind ref =>
    by_cases henough : ref.argumentCount kind ≤ a.stack.length
    · have hcount : ref.argumentCount kind =
          ref.descriptor.parameters.length + if kind = .static then 0 else 1 := rfl
      refine ⟨fun v m' h => ?_, fun e m' h => ?_⟩
      all_goals
        simp only [Callees.answer, Activation.ask, if_pos henough] at h
        rw [execute_invoke_eq hcount henough, h]
      rfl
    · refine ⟨fun v m' h => ?_, fun e m' h => ?_⟩
      all_goals
        simp only [Callees.answer, Activation.ask, if_neg henough] at h
        cases h
      rw [execute_invoke_missing rfl (Nat.not_le.mp henough)]
      rfl
  | getStatic field =>
    exact follows_prepare (x := do push (← lift (Run.getStatic field)))
      (.bind (.lift (.getStatic field)) fun _ => .push _)
  | putStatic field =>
    exact follows_prepare (x := do lift (Run.putStatic field (← pop)))
      (.bind .pop fun _ => .lift (.putStatic field _))
  | new owner =>
    exact follows_prepare (x := do push (.ref (← lift (Run.newInstance owner))))
      (.bind (.lift (.newInstance owner)) fun _ => .push _)
  | label _ | lineNumber _ | nop | goto _ | returnVoid => exact follows_of_quiet (.pure _)
  | pushNull | pushInt _ | pushLong _ | pushFloat _ | pushDouble _ =>
    exact follows_of_quiet (.andNext (.push _))
  | pushConstant c =>
    cases c with
    | string s => exact follows_of_quiet (.andNext (.bind (.lift (.intern s)) fun _ => .push _))
    | _ => exact follows_of_quiet (.lift (.fail nofun))
  | load _ slot => exact follows_of_quiet (.andNext (.bind (.load slot) fun _ => .push _))
  | store _ slot => exact follows_of_quiet (.andNext (.bind .pop fun _ => .store _ _))
  | arrayLoad _ =>
    exact follows_of_quiet (.andNext (.bind .popInt fun _ => .bind .popRef fun _ =>
      .bind (.lift (.arrayElement _ _)) fun _ => .push _))
  | arrayStore _ =>
    exact follows_of_quiet (.andNext (.bind .pop fun _ => .bind .popInt fun _ => .bind .popRef fun _ =>
      .lift (.setArrayElement _ _ _)))
  | stack op => exact follows_of_quiet (.andNext (.rearrange op))
  | arith op kind => exact follows_of_quiet (.andNext (.arith op kind))
  | neg kind => exact follows_of_quiet (.andNext (.neg kind))
  | shift op kind => exact follows_of_quiet (.andNext (.shift op kind))
  | bitwise op kind => exact follows_of_quiet (.andNext (.bitwise op kind))
  | increment slot delta => exact follows_of_quiet (.andNext (.increment slot delta))
  | convert c => exact follows_of_quiet (.andNext (.convert c))
  | compareLong =>
    exact follows_of_quiet (.andNext (.bind .popLong fun _ => .bind .popLong fun _ => .push _))
  | compareFloat kind nan => exact follows_of_quiet (.andNext (.compareFloat nan kind))
  | getField field =>
    exact follows_of_quiet (.andNext (.bind .popObject fun _ => .bind (.lift (.getField _ field)) fun _ =>
      .push _))
  | putField field =>
    exact follows_of_quiet (.andNext (.bind .pop fun _ => .bind .popObject fun _ =>
      .lift (.putField _ field _)))
  | invokeDynamic _ | jsr _ | ret _ => exact follows_of_quiet (.lift (.fail nofun))
  | newArray _ | newRefArray _ =>
    exact follows_of_quiet (.andNext (.bind .popInt fun _ => .bind (.lift (.allocateArray _ _)) fun _ =>
      .push _))
  | newMultiArray type dimensions =>
    exact follows_of_quiet (.andNext (.bind (.popCounts _ _) fun _ =>
      .bind (.lift (.allocateArrays type _)) fun _ => .push _))
  | arrayLength =>
    exact follows_of_quiet (.andNext (.bind .popObject fun _ => .bind (.lift (.arrayLength _)) fun _ =>
      .push _))
  | checkCast type =>
    exact follows_of_quiet (.andNext (.bind .pop fun _ => .bind (.lift (.checkCast _ type)) fun _ => .push _))
  | instanceOf type =>
    refine follows_of_quiet (.andNext (.bind .pop fun v => ?_))
    cases v with
    | ref r => exact .bind (.lift (.isInstance r type)) fun _ => .push _
    | _ => exact .bind (.pure _) fun _ => .push _
  | monitorEnter => exact follows_of_quiet (.andNext (.bind .popObject fun _ => .lift (.enterMonitor _)))
  | monitorExit => exact follows_of_quiet (.andNext (.bind .popObject fun _ => .lift (.exitMonitor _)))
  | ifZero _ _ | tableSwitch _ _ _ | lookupSwitch _ _ => exact follows_of_quiet (.bind .popInt fun _ => .pure _)
  | ifInt _ _ => exact follows_of_quiet (.bind .popInt fun _ => .bind .popInt fun _ => .pure _)
  | ifRef _ _ => exact follows_of_quiet (.bind .pop fun _ => .bind .pop fun _ => .pure _)
  | ifNull _ _ | returnValue _ => exact follows_of_quiet (.bind .pop fun _ => .pure _)
  | throw => exact follows_of_quiet (.bind .popObject fun r => .lift (.exception r))

end Step

end Resumption
