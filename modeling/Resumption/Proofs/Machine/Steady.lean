import Resumption.Proofs.Machine.Growth
import Resumption.Proofs.Machine.Straight

/-!
# What an instruction can do

`Step.SteadyAt` says of a computation inside of an activation what `Run.Leads` says of one on a
machine, and that it keeps index and method and puts no `top` on the stack; `Step.Steady` says so
for every activation. What each instruction does is said once, in `Step.execute_steady`.
-/

namespace Resumption

variable {D : Discipline} {N : List (MethodRef × Native)} {P : Prop} {α β : Type}

/-- No `top` is on the stack. -/
def Activation.Sound (a : Activation) : Prop := Run.NoTop a.stack

namespace Step

/-- The computation keeps index and method, leads to a later machine, and keeps activation and
machine sound if `P` holds; a result then satisfies `V`. -/
def SteadyAt (D : Discipline) (P : Prop) (V : α → Prop) (x : Step α) (a : Activation)
    (m : Machine) : Prop :=
  match x a m with
  | .ok (r, b) m' => b.index = a.index ∧ b.method = a.method ∧ m.Proceeds m' ∧
    (P → a.Sound → m.Sound D → b.Sound ∧ m'.Sound D ∧ V r)
  | .error _ m' => m.Proceeds m' ∧ (P → a.Sound → m.Sound D → m'.Sound D)

/-- The same for every activation, on machines with the natives `N`. -/
def Steady (D : Discipline) (N : List (MethodRef × Native)) (P : Prop) (V : α → Prop)
    (x : Step α) : Prop :=
  ∀ a m, m.natives = N → SteadyAt D P V x a m

variable {V : α → Prop} {W : β → Prop} {x : Step α}

namespace Steady

/-- A value is steady. -/
theorem pure {r : α} (h : P → V r) : Steady D N P V (Pure.pure r) := fun _ m _ =>
  ⟨rfl, rfl, .refl m, fun hp ha hm => ⟨ha, hm, h hp⟩⟩

/-- One steady computation after the other is steady. -/
theorem bind {f : α → Step β} (hx : Steady D N P V x) (hf : ∀ r, Steady D N (P ∧ V r) W (f r)) :
    Steady D N P W (x >>= f) := by
  intro a m hnatives
  have hxa := hx a m hnatives
  simp only [SteadyAt, Bind.bind, StateT.bind, EStateM.bind] at hxa ⊢
  cases hxm : x a m with
  | error e m' =>
    rw [hxm] at hxa
    exact hxa
  | ok p m' =>
    obtain ⟨r, b⟩ := p
    rw [hxm] at hxa
    obtain ⟨hindex, hmethod, hlater, hsound⟩ := hxa
    have hfb := hf r b m' (hlater.natives.trans hnatives)
    simp only [SteadyAt] at hfb ⊢
    split at hfb
    · obtain ⟨hindex', hmethod', hlater', hsound'⟩ := hfb
      refine ⟨hindex'.trans hindex, hmethod'.trans hmethod, hlater.trans hlater', fun hp ha hm => ?_⟩
      obtain ⟨hb, hm', hr⟩ := hsound hp ha hm
      exact hsound' ⟨hp, hr⟩ hb hm'
    · refine ⟨hlater.trans hfb.1, fun hp ha hm => ?_⟩
      obtain ⟨hb, hm', hr⟩ := hsound hp ha hm
      exact hfb.2 ⟨hp, hr⟩ hb hm'

/-- What leads to a sound machine is steady inside of an activation. -/
theorem lift {y : Run α} (h : ∀ m, m.natives = N → Run.Leads D P V y m) :
    Steady D N P V (StateT.lift y) := by
  intro a m hnatives
  have hy := h m hnatives
  simp only [Run.Leads] at hy
  simp only [SteadyAt, StateT.lift, Bind.bind, EStateM.bind]
  cases hym : y m with
  | ok r m' =>
    rw [hym] at hy
    exact ⟨rfl, rfl, hy.1, fun hp ha hm => ⟨ha, hy.2 hp hm⟩⟩
  | error e m' =>
    rw [hym] at hy
    exact ⟨hy.1, fun hp _ hm => hy.2 hp hm⟩

/-- A fault is steady. -/
theorem fault {f : CodeFault} : Steady D N P V (fault (α := α) f) := fun _ m _ =>
  ⟨.refl m, fun _ _ hm => hm⟩

/-- Pushing what is not `top` is steady. -/
theorem push {v : Value} (hv : P → v ≠ .top) : Steady D N P (fun _ => True) (Step.push v) :=
  fun _ m _ => ⟨rfl, rfl, .refl m, fun hp ha hm =>
    ⟨fun w hw => (List.mem_cons.mp hw).elim (fun he => he ▸ hv hp) (ha w), hm, trivial⟩⟩

/-- Pushing values of which none is `top` is steady. -/
theorem pushAll {vs : List Value} (hvs : P → Run.NoTop vs) :
    Steady D N P (fun _ => True) (Step.pushAll vs) := fun _ m _ =>
  ⟨rfl, rfl, .refl m, fun hp ha hm => ⟨fun w hw => (List.mem_append.mp hw).elim
    (fun hr => hvs hp w (List.mem_reverse.mp hr)) (ha w), hm, trivial⟩⟩

/-- What is popped is not `top`. -/
theorem pop : Steady D N P (· ≠ .top) Step.pop := by
  intro a m _
  obtain ⟨method, locals, stack, index⟩ := a
  cases stack with
  | nil => exact ⟨.refl m, fun _ _ hm => hm⟩
  | cons v rest =>
    exact ⟨rfl, rfl, .refl m, fun _ ha hm =>
      ⟨fun w hw => ha w (List.mem_cons_of_mem _ hw), hm, ha v (List.mem_cons_self ..)⟩⟩

theorem popInt : Steady D N P (fun _ => True) Step.popInt :=
  .bind pop fun v => by
    cases v with
    | int n => exact .pure fun _ => trivial
    | _ => exact .fault

theorem popLong : Steady D N P (fun _ => True) Step.popLong :=
  .bind pop fun v => by
    cases v with
    | long n => exact .pure fun _ => trivial
    | _ => exact .fault

theorem popFloat : Steady D N P (fun _ => True) Step.popFloat :=
  .bind pop fun v => by
    cases v with
    | float n => exact .pure fun _ => trivial
    | _ => exact .fault

theorem popDouble : Steady D N P (fun _ => True) Step.popDouble :=
  .bind pop fun v => by
    cases v with
    | double n => exact .pure fun _ => trivial
    | _ => exact .fault

theorem popRef : Steady D N P (fun _ => True) Step.popRef :=
  .bind pop fun v => by
    cases v with
    | ref r => exact .pure fun _ => trivial
    | null => exact .pure fun _ => trivial
    | _ => exact .fault

theorem popObject : Steady D N P (fun _ => True) Step.popObject :=
  .bind popRef fun _ => .lift fun _ _ => Run.nonNull_leads

/-- Values that were popped are not `top`. -/
theorem popWords (words : Nat) : Steady D N P Run.NoTop (Step.popWords words) := by
  have happend : ∀ (v : Value) (P : Prop) (vs : List Value), (P → v ≠ .top) → (P → Run.NoTop vs) →
      Steady D N P Run.NoTop (Pure.pure (vs ++ [v])) := fun v P vs hv hvs => .pure fun hp w hw =>
    (List.mem_append.mp hw).elim (hvs hp w) fun he => List.mem_singleton.mp he ▸ hv hp
  induction words using Step.popWords.induct generalizing P with
  | case1 => exact .pure fun _ => nofun
  | case2 =>
    refine .bind pop fun v => ?_
    split
    · exact happend v _ [] (·.2) fun _ => nofun
    · exact .fault
  | case3 words ih ih' =>
    refine .bind pop fun v => ?_
    split
    · exact .bind ih fun vs => happend v _ vs (·.1.2) (·.2)
    · exact .bind ih' fun vs => happend v _ vs (·.1.2) (·.2)

theorem copyWords (top under : Nat) : Steady D N P (fun _ => True) (Step.copyWords top under) := by
  refine .bind (popWords top) fun above => .bind (popWords under) fun below => pushAll fun h => ?_
  intro v hv
  rcases List.mem_append.mp hv with hv | hv
  · rcases List.mem_append.mp hv with hv | hv
    · exact h.1.2 v hv
    · exact h.2 v hv
  · exact h.1.2 v hv

/-- What is loaded is not `top`. -/
theorem load (slot : Nat) : Steady D N P (· ≠ .top) (Step.load slot) := by
  intro a m _
  simp only [SteadyAt, Step.load, Bind.bind, StateT.bind, EStateM.bind, MonadState.get, getThe,
    MonadStateOf.get, StateT.get, Pure.pure, EStateM.pure]
  cases hv : a.locals.getD slot .top with
  | top => exact ⟨.refl m, fun _ _ hm => hm⟩
  | _ => exact ⟨rfl, rfl, .refl m, fun _ ha hm => ⟨ha, hm, (by simp)⟩⟩

/-- Variables may hold anything. -/
theorem store {slot : Nat} {v : Value} : Steady D N P (fun _ => True) (Step.store slot v) :=
  fun _ m _ => ⟨rfl, rfl, .refl m, fun _ ha hm => ⟨ha, hm, trivial⟩⟩

/-- Going on after what is steady is steady. -/
theorem andNext {y : Step Unit} (h : Steady D N P (fun _ => True) y) :
    Steady D N P (fun _ => True) (Step.andNext y) :=
  .bind h fun _ => .pure fun _ => trivial

/-- What drops its result is as steady as before. -/
theorem discard {y : Step α} (h : Steady D N P V y) :
    Steady D N P (fun _ => True) (Functor.discard y) := by
  rw [discard_eq_bind]
  exact .bind h fun _ => .pure fun _ => trivial

/-- The arguments of a call are not `top`. -/
theorem popArguments (count : Nat) : Steady D N P Run.NoTop (Step.popArguments count) := by
  intro a m _
  simp only [SteadyAt, Step.popArguments, Bind.bind, StateT.bind, EStateM.bind, MonadState.get, getThe,
    MonadStateOf.get, StateT.get, Pure.pure, EStateM.pure]
  by_cases h : a.stack.length < count
  · simp only [h, if_true]
    exact ⟨.refl m, fun _ _ hm => hm⟩
  · simp only [h, if_false]
    exact ⟨rfl, rfl, .refl m, fun _ ha hm => ⟨fun v hv => ha v (List.mem_of_mem_drop hv), hm,
      fun v hv => ha v (List.mem_of_mem_take (List.mem_reverse.mp hv))⟩⟩

theorem quotient {r : Option α} : Steady D N P (fun _ => True) (Step.quotient r) := by
  cases r with
  | some r => exact .pure fun _ => trivial
  | none => exact .lift fun _ _ => Run.raise_leads

theorem popCounts (n : Nat) (counts : List Int32) :
    Steady D N P (fun _ => True) (Step.popCounts n counts) := by
  induction n generalizing counts P with
  | zero => exact .pure fun _ => trivial
  | succ n ih => exact .bind popInt fun _ => ih _

/-- Narrowing a value for an array makes no `top` of it. -/
theorem narrowed_ne_top {v : Value} (h : v ≠ .top) (element : ElementKind) :
    Step.narrowed element v ≠ .top := by
  cases v with
  | top => exact absurd rfl h
  | _ => cases element <;> exact nofun

end Steady

/-! ## Instructions -/

/-- What an activation asks of others is as steady as it is itself. -/
structure CalleesSteady (D : Discipline) (N : List (MethodRef × Native)) (callees : Callees) :
    Prop where
  /-- what is called -/
  call : ∀ (P : Prop) kind ref arguments m, m.natives = N → (P → Run.NoTop arguments) →
    (P → ref = Interface.MethodState.create → Run.MakesGood D.key arguments m) →
    Run.Leads D P Run.Definite (callees.call kind ref arguments) m
  /-- what is made ready -/
  prepare : ∀ (P : Prop) name m, m.natives = N →
    Run.Leads D P (fun _ => True) (callees.prepare name) m

theorem arith_steady (op : ArithOp) (kind : NumericKind) :
    Steady D N P (fun _ => True) (arith op kind) := by
  cases kind with
  | int => exact .bind .popInt fun _ => .bind .popInt fun _ => .bind .quotient fun _ => .push fun _ => nofun
  | long =>
    exact .bind .popLong fun _ => .bind .popLong fun _ => .bind .quotient fun _ => .push fun _ => nofun
  | float => exact .bind .popFloat fun _ => .bind .popFloat fun _ => .push fun _ => nofun
  | double => exact .bind .popDouble fun _ => .bind .popDouble fun _ => .push fun _ => nofun

theorem neg_steady (kind : NumericKind) : Steady D N P (fun _ => True) (neg kind) := by
  cases kind with
  | int => exact .bind .popInt fun _ => .push fun _ => nofun
  | long => exact .bind .popLong fun _ => .push fun _ => nofun
  | float => exact .bind .popFloat fun _ => .push fun _ => nofun
  | double => exact .bind .popDouble fun _ => .push fun _ => nofun

theorem shift_steady (op : ShiftOp) (kind : IntegralKind) :
    Steady D N P (fun _ => True) (shift op kind) := by
  cases kind with
  | int => exact .bind .popInt fun _ => .bind .popInt fun _ => .push fun _ => nofun
  | long => exact .bind .popInt fun _ => .bind .popLong fun _ => .push fun _ => nofun

theorem bitwise_steady (op : BitOp) (kind : IntegralKind) :
    Steady D N P (fun _ => True) (bitwise op kind) := by
  cases kind with
  | int => exact .bind .popInt fun _ => .bind .popInt fun _ => .push fun _ => nofun
  | long => exact .bind .popLong fun _ => .bind .popLong fun _ => .push fun _ => nofun

theorem convert_steady (c : Conversion) : Steady D N P (fun _ => True) (convert c) := by
  cases c with
  | intToLong | intToFloat | intToDouble | intToByte | intToChar | intToShort =>
    exact .bind .popInt fun _ => .push fun _ => nofun
  | longToInt | longToFloat | longToDouble => exact .bind .popLong fun _ => .push fun _ => nofun
  | floatToInt | floatToLong | floatToDouble => exact .bind .popFloat fun _ => .push fun _ => nofun
  | doubleToInt | doubleToLong | doubleToFloat =>
    exact .bind .popDouble fun _ => .push fun _ => nofun

theorem compareFloat_steady (nan : NaNOrder) (kind : FloatKind) :
    Steady D N P (fun _ => True) (compareFloat nan kind) := by
  cases kind with
  | float => exact .bind .popFloat fun _ => .bind .popFloat fun _ => .push fun _ => nofun
  | double => exact .bind .popDouble fun _ => .bind .popDouble fun _ => .push fun _ => nofun

theorem rearrange_steady (op : StackOp) : Steady D N P (fun _ => True) (rearrange op) := by
  cases op with
  | pop => exact .discard (.popWords 1)
  | pop2 => exact .discard (.popWords 2)
  | dup | dupX1 | dupX2 | dup2 | dup2X1 | dup2X2 => exact .copyWords _ _
  | swap =>
    refine .bind .pop fun upper => .bind .pop fun lower => .pushAll fun h v hv => ?_
    rcases List.mem_cons.mp hv with rfl | hv
    · exact h.1.2
    · exact List.mem_singleton.mp hv ▸ h.2

theorem arrayLoad_steady : Steady D N P (fun _ => True) arrayLoad :=
  .bind .popInt fun _ => .bind .popRef fun _ => .bind (.lift fun _ _ => Run.arrayElement_leads)
    fun _ => .push (·.2)

theorem arrayStore_steady (element : ElementKind) :
    Steady D N P (fun _ => True) (arrayStore element) :=
  .bind .pop fun _ => .bind .popInt fun _ => .bind .popRef fun _ => .lift fun _ _ =>
    Run.setArrayElement_leads fun h => Steady.narrowed_ne_top h.1.1.2 element

theorem increment_steady (slot : Nat) (delta : Int16) :
    Steady D N P (fun _ => True) (increment slot delta) :=
  .bind (.load slot) fun v => by
    cases v with
    | int n => exact .store
    | _ => exact .fault

/-- A result that the method returns is not `top`. -/
def Returns (p : Progress) : Prop := ∀ v, p = .done v → Run.Definite v

/-- An instruction that goes on returns nothing. -/
theorem next_steady {y : Step Unit} (h : Steady D N P (fun _ => True) y) :
    Steady D N P Returns (andNext y) :=
  .bind h fun _ => .pure fun _ => nofun

/-- **What an instruction can do.** A call that makes a method state is sound only if the key of the
state is good, so it is left out of the sound part unless every key is. -/
theorem execute_steady {callees : Callees} (hcallees : CalleesSteady D N callees) (i : Instruction)
    (hcreate : P → (∀ kind, i ≠ .invoke kind Interface.MethodState.create) ∨ ∀ k, D.key k) :
    Steady D N P Returns (execute callees i) := by
  cases i with
  | label _ | lineNumber _ | nop | goto _ => exact .pure fun _ => nofun
  | pushNull | pushInt _ | pushLong _ | pushFloat _ | pushDouble _ =>
    exact next_steady (.push fun _ => nofun)
  | pushConstant c =>
    cases c with
    | string s => exact next_steady (.bind (.lift fun _ _ => Run.Leads.intern) fun _ => .push fun _ => nofun)
    | type _ => exact .lift fun _ _ => .fail
    | methodType _ => exact .lift fun _ _ => .fail
  | load _ slot => exact next_steady (.bind (.load slot) fun _ => .push (·.2))
  | store _ slot => exact next_steady (.bind .pop fun _ => .store)
  | arrayLoad _ => exact next_steady arrayLoad_steady
  | arrayStore element => exact next_steady (arrayStore_steady element)
  | stack op => exact next_steady (rearrange_steady op)
  | arith op kind => exact next_steady (arith_steady op kind)
  | neg kind => exact next_steady (neg_steady kind)
  | shift op kind => exact next_steady (shift_steady op kind)
  | bitwise op kind => exact next_steady (bitwise_steady op kind)
  | increment slot delta => exact next_steady (increment_steady slot delta)
  | convert c => exact next_steady (convert_steady c)
  | compareLong =>
    exact next_steady (.bind .popLong fun _ => .bind .popLong fun _ => .push fun _ => nofun)
  | compareFloat kind nan => exact next_steady (compareFloat_steady nan kind)
  | getStatic field =>
    exact next_steady (.bind (.lift (hcallees.prepare _ _)) fun _ =>
      .bind (.lift fun _ _ => Run.getStatic_leads) fun _ => .push (·.2))
  | putStatic field =>
    exact next_steady (.bind (.lift (hcallees.prepare _ _)) fun _ => .bind .pop fun _ =>
      .lift fun _ _ => Run.putStatic_leads (·.2))
  | getField field =>
    exact next_steady (.bind .popObject fun _ => .bind (.lift fun _ _ => Run.getField_leads)
      fun _ => .push (·.2))
  | putField field =>
    exact next_steady (.bind .pop fun _ => .bind .popObject fun _ => .lift fun _ _ =>
      Run.putField_leads (·.1.2))
  | invoke kind method =>
    refine next_steady (.bind (.popArguments _) fun arguments => ?_)
    refine .bind (.lift fun m hm => hcallees.call _ kind method arguments m hm (·.2) fun h he => ?_)
      fun result => ?_
    · rcases hcreate h.1 with hother | hall
      · exact absurd (by rw [he]) (hother kind)
      · exact fun _ _ _ _ _ _ _ _ _ _ => hall _
    · cases result with
      | none => exact .pure fun _ => trivial
      | some v => exact .push fun h => h.2 v rfl
  | invokeDynamic _ => exact .lift fun _ _ => .fail
  | new owner =>
    exact next_steady (.bind (.lift (hcallees.prepare _ _)) fun _ =>
      .bind (.lift fun _ _ => Run.newInstance_leads) fun _ => .push fun _ => nofun)
  | newArray _ | newRefArray _ =>
    exact next_steady (.bind .popInt fun _ => .bind (.lift fun _ _ => Run.allocateArray_leads)
      fun _ => .push fun _ => nofun)
  | newMultiArray type dimensions =>
    exact next_steady (.bind (.popCounts _ _) fun _ => .bind (.lift fun _ _ => Run.allocateArrays_leads)
      fun _ => .push fun _ => nofun)
  | arrayLength =>
    exact next_steady (.bind .popObject fun _ => .bind (.lift fun _ _ => Run.arrayLength_leads)
      fun _ => .push fun _ => nofun)
  | checkCast type =>
    exact next_steady (.bind .pop fun _ => .bind (.lift fun _ _ => Run.checkCast_leads)
      fun _ => .push (·.1.2))
  | instanceOf type =>
    refine next_steady (.bind .pop fun v => ?_)
    cases v with
    | ref r => exact .bind (.lift fun _ _ => Run.isInstance_leads) fun _ => .push fun _ => nofun
    | _ => exact .bind (V := fun _ => True) (.pure fun _ => trivial) fun _ => .push fun _ => nofun
  | monitorEnter =>
    exact next_steady (.bind .popObject fun _ => .lift fun _ _ => Run.enterMonitor_leads)
  | monitorExit =>
    exact next_steady (.bind .popObject fun _ => .lift fun _ _ => Run.exitMonitor_leads)
  | ifZero comparison target =>
    refine .bind .popInt fun n => .pure fun _ v he => ?_
    simp only [jumpIf] at he
    split at he <;> cases he
  | ifInt comparison target =>
    refine .bind .popInt fun _ => .bind .popInt fun _ => .pure fun _ v he => ?_
    simp only [jumpIf] at he
    split at he <;> cases he
  | ifRef equality target =>
    refine .bind .pop fun _ => .bind .pop fun _ => .pure fun _ v he => ?_
    simp only [jumpIf] at he
    split at he <;> cases he
  | ifNull equality target =>
    refine .bind .pop fun _ => .pure fun _ v he => ?_
    simp only [jumpIf] at he
    split at he <;> cases he
  | jsr _ | ret _ => exact .lift fun _ _ => .fail
  | tableSwitch low default targets => exact .bind .popInt fun _ => .pure fun _ => nofun
  | lookupSwitch default cases => exact .bind .popInt fun _ => .pure fun _ => nofun
  | returnValue _ =>
    exact .bind .pop fun v => .pure fun h w he => by
      cases he
      exact .some h.2
  | returnVoid =>
    exact .pure fun _ v he => by
      cases he
      exact .none
  | throw => exact .bind .popObject fun _ => .lift fun _ _ => .throw

end Step

end Resumption
