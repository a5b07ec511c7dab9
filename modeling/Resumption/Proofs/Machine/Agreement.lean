import Resumption.Proofs.Machine.Faults
import Resumption.Proofs.Machine.Kinds
import Resumption.Proofs.Machine.Straight

/-!
# Instructions do what their frames say

An activation fits a frame if its locals and its stack hold values of the kinds that the frame says
(`Activation.Fits`). If the frame admits an instruction, executing it raises no fault and leaves an
activation that fits the frame after it (`Step.execute_fits`), as long as what it asks of others is
delivered as declared (`Callees.Delivers`).

`Step.Gives` says what a computation inside of an activation ends with. It has one rule for each way
to put computations together and one for each operation on the operand stack.
-/

namespace Resumption

/-! ## Activations that fit a frame -/

/-- Locals and stack hold values of the kinds that the frame says, and there are no further
locals. -/
structure Activation.Fits (f : Frame) (a : Activation) : Prop where
  /-- variables are admitted -/
  locals : ∀ (slot : Nat) t, f.locals[slot]? = some t → t.Admits (a.valueAt slot)
  /-- operands are admitted -/
  stack : List.Forall₂ SlotType.Admits f.stack a.stack
  /-- there are no other variables -/
  size : a.locals.size ≤ f.locals.length

/-- An activation at an instruction, that fits the frame there. -/
structure Activation.FitsAt (index : Nat) (f : Frame) (a : Activation) : Prop where
  /-- control is there -/
  index_eq : a.index = index
  /-- the frame admits the activation -/
  fits : a.Fits f

namespace Activation.Fits

variable {f : Frame} {a : Activation}

/-- What fits a frame fits every wider one. -/
theorem narrows {g : Frame} (ha : a.Fits f) (h : f.Narrows g) : a.Fits g := by
  refine ⟨fun slot t ht => ?_, ?_, h.locals.length_eq ▸ ha.size⟩
  · have hlt := (List.getElem?_eq_some_iff.mp ht).1
    have hlt' : slot < f.locals.length := h.locals.length_eq ▸ hlt
    have hnarrows := (List.forall₂_iff_get.mp h.locals).2 slot hlt' hlt
    simp only [List.get_eq_getElem] at hnarrows
    rw [(List.getElem?_eq_some_iff.mp ht).2] at hnarrows
    exact hnarrows _ (ha.locals slot _ (List.getElem?_eq_getElem hlt'))
  · have hlists : ∀ {xs ys : List SlotType} {vs : List Value}, List.Forall₂ SlotType.Narrows xs ys →
        List.Forall₂ SlotType.Admits xs vs → List.Forall₂ SlotType.Admits ys vs := by
      intro xs ys vs hxy hxv
      induction hxy generalizing vs with
      | nil => exact hxv
      | cons hfirst _ ih =>
        cases hxv with
        | cons hv hvs => exact .cons (hfirst _ hv) (ih hvs)
    exact hlists h.stack ha.stack

end Activation.Fits

/-! ## What is delivered -/

/-- May a value of this kind be an element? -/
def ElementKind.Admits (element : ElementKind) (v : Value) : Prop :=
  match element.slot? with
  | some t => t.Admits v
  | none => v.HasKind .object

/-- The arguments that a call takes off the stack, the receiver first. -/
def Activation.arguments (a : Activation) (kind : CallKind) (ref : MethodRef) : List Value :=
  (a.stack.take (ref.descriptor.parameters.length + if kind = .static then 0 else 1)).reverse

/-- Values from arrays, fields and calls have the kinds that the instruction or its descriptor
declares, and a call gives a value if and only if its descriptor declares one. -/
def Callees.Delivers (callees : Callees) (i : Instruction) (a : Activation) (m : Machine) : Prop :=
  match i with
  | .arrayLoad element => ∀ index array rest v m', a.stack = .int index :: array :: rest →
      Run.arrayElement array.ref? index m = .ok v m' → element.Admits v
  | .getField field => ∀ r rest v m', a.stack = .ref r :: rest →
      Run.getField r field m = .ok v m' → (SlotType.ofField field.type).Admits v
  | .getStatic field => ∀ m₁ v m', callees.prepare field.owner m = .ok () m₁ →
      Run.getStatic field m₁ = .ok v m' → (SlotType.ofField field.type).Admits v
  | .invoke kind ref => ∀ result m', callees.call kind ref (a.arguments kind ref) m = .ok result m' →
      Option.Rel (fun t v => (SlotType.ofField t).Admits v) ref.descriptor.result result
  | _ => True

/-- The failure is that of a method or of the initialization of a class that the instruction asks
for. -/
def Callees.Raises (callees : Callees) (i : Instruction) (a : Activation) (m : Machine)
    (e : RunError) (m' : Machine) : Prop :=
  match i with
  | .getStatic field | .putStatic field =>
    callees.prepare field.owner m = .error (.failure e) m'
  | .new owner => callees.prepare owner m = .error (.failure e) m'
  | .invoke kind ref => callees.call kind ref (a.arguments kind ref) m = .error (.failure e) m'
  | _ => False

/-- May an instruction go on like this? -/
def Instruction.Continues (i : Instruction) : Progress → Prop
  | .next => i.fallsThrough = true
  | .jump l => l ∈ i.targets
  | .done _ => True

/-! ## Rules -/

namespace Step

variable {α β : Type}

/-- The computation ends with what `Q` says, or with an exception, or with a failure; a fault among
the failures is one that `R` allows. -/
def Gives (R : RunError → Machine → Prop) (x : Step α) (a : Activation) (m : Machine)
    (Q : α → Activation → Machine → Prop) : Prop :=
  match x a m with
  | .ok (r, b) m' => Q r b m'
  | .error (.exception _) _ => True
  | .error (.failure e) m' => e.IsFault → R e m'

variable {R : RunError → Machine → Prop} {a : Activation} {m : Machine}
  {Q : α → Activation → Machine → Prop} {index : Nat} {locals S : List SlotType}

namespace Gives

/-- A value gives what holds already. -/
theorem pure {r : α} (h : Q r a m) : Gives R (Pure.pure r) a m Q := h

/-- One computation after the other gives what the second gives. -/
theorem bind {x : Step β} {f : β → Step α}
    (h : Gives R x a m fun r b m' => Gives R (f r) b m' Q) : Gives R (x >>= f) a m Q := by
  simp only [Gives, Bind.bind, StateT.bind, EStateM.bind] at *
  cases hx : x a m with
  | ok p m' =>
    obtain ⟨r, b⟩ := p
    rw [hx] at h
    exact h
  | error e m' =>
    rw [hx] at h
    cases e <;> exact h

/-- A computation gives what follows from what it gives. -/
theorem mono {x : Step α} {Q' : α → Activation → Machine → Prop} (h : Gives R x a m Q)
    (hQ : ∀ r b m', Q r b m' → Q' r b m') : Gives R x a m Q' := by
  simp only [Gives] at *
  split at h
  · exact hQ _ _ _ h
  · exact trivial
  · exact h

/-- What a computation on the machine gives, it gives inside of an activation too. -/
theorem lift {y : Run α} (hok : ∀ r m', y m = .ok r m' → Q r a m')
    (hfail : ∀ e m', y m = .error (.failure e) m' → e.IsFault → R e m') :
    Gives R (StateT.lift y) a m Q := by
  simp only [Gives, StateT.lift, Bind.bind, EStateM.bind]
  cases hy : y m with
  | ok r m' => exact hok r m' hy
  | error e m' =>
    cases e with
    | exception r => exact trivial
    | failure e => exact hfail e m' hy

/-- What is mild does not end with a fault. -/
theorem mild {y : Run α} (hy : Run.Mild y) (hok : ∀ r m', y m = .ok r m' → Q r a m') :
    Gives R (StateT.lift y) a m Q :=
  lift hok fun e m' h hfault => absurd hfault (hy.faultless m e m' h)

/-- Control goes on after a computation that gives the frame. -/
theorem andNext {x : Step Unit} {Q : Progress → Activation → Machine → Prop}
    (h : Gives R x a m fun _ b m' => Q .next b m') : Gives R (Step.andNext x) a m Q := bind h

/-- A division gives its quotient if there is one. -/
theorem quotient {x : Option α} (h : ∀ r, x = some r → Q r a m) :
    Gives R (Step.quotient x) a m Q := by
  cases x with
  | some r => exact h r rfl
  | none => exact mild (.raise _ _) fun r m' hr => nomatch hr

/-- A result that is dropped gives what the computation gives. -/
theorem discard {x : Step β} {Q : Unit → Activation → Machine → Prop}
    (h : Gives R x a m fun _ b m' => Q () b m') : Gives R (Functor.discard x) a m Q := by
  rw [discard_eq_bind]
  exact bind h

/-! ### The operand stack -/

/-- Pushing an admitted value fits the frame with its type on top. -/
theorem push {t : SlotType} {v : Value} {Q : Unit → Activation → Machine → Prop}
    (ha : a.FitsAt index ⟨locals, S⟩) (hv : t.Admits v)
    (h : ∀ b : Activation, b.FitsAt index ⟨locals, t :: S⟩ → Q () b m) :
    Gives R (Step.push v) a m Q :=
  h _ ⟨ha.index_eq, ha.fits.locals, .cons hv ha.fits.stack, ha.fits.size⟩

/-- Taking a value off gives one that the top type admits. -/
theorem pop {t : SlotType} {Q : Value → Activation → Machine → Prop}
    (ha : a.FitsAt index ⟨locals, t :: S⟩)
    (h : ∀ (v : Value) (b : Activation), t.Admits v → b.FitsAt index ⟨locals, S⟩ →
      a.stack = v :: b.stack → b.locals = a.locals → Q v b m) : Gives R Step.pop a m Q := by
  obtain ⟨hindex, hlocals, hstack, hsize⟩ := ha
  obtain ⟨method, values, stack, k⟩ := a
  cases hstack with
  | cons hv hrest => exact h _ _ hv ⟨hindex, hlocals, hrest, hsize⟩ rfl rfl

/-- Under an integer lies an integer. -/
theorem popInt {Q : Int32 → Activation → Machine → Prop}
    (ha : a.FitsAt index ⟨locals, .integer :: S⟩)
    (h : ∀ (n : Int32) (b : Activation), b.FitsAt index ⟨locals, S⟩ → a.stack = .int n :: b.stack →
      Q n b m) : Gives R Step.popInt a m Q := by
  refine bind (pop ha fun v b hv hb hstack _ => ?_)
  obtain ⟨n, rfl⟩ := hv
  exact h n b hb hstack

/-- Under a long lies a long. -/
theorem popLong {Q : Int64 → Activation → Machine → Prop}
    (ha : a.FitsAt index ⟨locals, .long :: S⟩)
    (h : ∀ (n : Int64) (b : Activation), b.FitsAt index ⟨locals, S⟩ → Q n b m) :
    Gives R Step.popLong a m Q := by
  refine bind (pop ha fun v b hv hb _ _ => ?_)
  obtain ⟨n, rfl⟩ := hv
  exact h n b hb

/-- Under a float lies a float. -/
theorem popFloat {Q : UInt32 → Activation → Machine → Prop}
    (ha : a.FitsAt index ⟨locals, .float :: S⟩)
    (h : ∀ (bits : UInt32) (b : Activation), b.FitsAt index ⟨locals, S⟩ → Q bits b m) :
    Gives R Step.popFloat a m Q := by
  refine bind (pop ha fun v b hv hb _ _ => ?_)
  obtain ⟨bits, rfl⟩ := hv
  exact h bits b hb

/-- Under a double lies a double. -/
theorem popDouble {Q : UInt64 → Activation → Machine → Prop}
    (ha : a.FitsAt index ⟨locals, .double :: S⟩)
    (h : ∀ (bits : UInt64) (b : Activation), b.FitsAt index ⟨locals, S⟩ → Q bits b m) :
    Gives R Step.popDouble a m Q := by
  refine bind (pop ha fun v b hv hb _ _ => ?_)
  obtain ⟨bits, rfl⟩ := hv
  exact h bits b hb

/-- Under a type of references lies a reference or null. -/
theorem popRef {t : SlotType} {Q : Option Ref → Activation → Machine → Prop}
    (ha : a.FitsAt index ⟨locals, t :: S⟩) (ht : t.isReference = true)
    (h : ∀ (v : Value) (b : Activation), v.HasKind .object → b.FitsAt index ⟨locals, S⟩ →
      a.stack = v :: b.stack → Q v.ref? b m) : Gives R Step.popRef a m Q := by
  refine bind (pop ha fun v b hv hb hstack _ => ?_)
  rcases hv.reference ht with rfl | ⟨r, rfl⟩
  · exact h .null b (.inl rfl) hb hstack
  · exact h (.ref r) b (.inr ⟨r, rfl⟩) hb hstack

/-- Under a type of references lies an object, unless the exception for null is thrown. -/
theorem popObject {t : SlotType} {Q : Ref → Activation → Machine → Prop}
    (ha : a.FitsAt index ⟨locals, t :: S⟩) (ht : t.isReference = true)
    (h : ∀ (r : Ref) (b : Activation), b.FitsAt index ⟨locals, S⟩ → a.stack = .ref r :: b.stack →
      Q r b m) : Gives R Step.popObject a m Q := by
  refine bind (popRef ha ht fun v b hv hb hstack => ?_)
  rcases hv with rfl | ⟨r, rfl⟩
  · exact mild (.nonNull none) fun r m' hr => nomatch hr
  · exact h r b hb hstack

/-- Words come off the stack as the frame says, as long as nothing on it is unusable. -/
theorem popWords {words : Nat} (hwords : words ≤ 2) {types taken rest : List SlotType}
    {Q : List Value → Activation → Machine → Prop}
    (hpop : Frame.popWords words types = .ok (taken, rest)) (hne : ∀ t ∈ types, t ≠ .top)
    (ha : a.FitsAt index ⟨locals, types⟩)
    (h : ∀ (vs : List Value) (b : Activation), List.Forall₂ SlotType.Admits taken vs →
      b.FitsAt index ⟨locals, rest⟩ → Q vs.reverse b m) : Gives R (Step.popWords words) a m Q := by
  match words, hwords with
  | 0, _ =>
    cases hpop
    exact h [] a .nil ha
  | 1, _ =>
    obtain ⟨⟨t, types'⟩, ht, hpop⟩ := Except.bind_ok.mp hpop
    cases hpop
    obtain ⟨rfl, hwidth⟩ := Frame.popNarrow_eq ht
    refine bind (pop ha fun v b hv hb _ _ => ?_)
    have hv' : v.width = 1 := (hv.width_eq (hne t (List.mem_cons_self ..))).trans hwidth
    rw [if_pos hv']
    exact h [v] b (.cons hv .nil) hb
  | 2, _ =>
    cases types with
    | nil => cases hpop
    | cons t types =>
      refine bind (pop ha fun v b hv hb _ _ => ?_)
      have hv' := hv.width_eq (hne t (List.mem_cons_self ..))
      simp only [Frame.popWords, Frame.pop, Bind.bind, Except.bind] at hpop
      split at hpop
      · rename_i hnarrow
        split at hpop
        · cases hpop
        · rename_i pair hu
          cases hpop
          obtain ⟨rfl, hwidth⟩ := Frame.popNarrow_eq hu
          have hu' := hne _ (List.mem_cons_of_mem t (List.mem_cons_self ..))
          rw [if_pos (hv'.trans hnarrow)]
          refine bind (bind (pop hb fun w c hw hc _ _ => ?_))
          rw [if_pos ((hw.width_eq hu').trans hwidth)]
          exact h [v, w] c (.cons hv (.cons hw .nil)) hc
      · rename_i hwide
        cases hpop
        rw [if_neg (hv' ▸ hwide)]
        exact h [v] b (.cons hv .nil) hb

/-- Pushing values that are admitted fits the frame with their types on top. -/
theorem pushAll {types : List SlotType} {vs : List Value} {Q : Unit → Activation → Machine → Prop}
    (ha : a.FitsAt index ⟨locals, S⟩) (hvs : List.Forall₂ SlotType.Admits types vs.reverse)
    (h : ∀ b : Activation, b.FitsAt index ⟨locals, types ++ S⟩ → Q () b m) :
    Gives R (Step.pushAll vs) a m Q :=
  h _ ⟨ha.index_eq, ha.fits.locals, List.rel_append hvs ha.fits.stack, ha.fits.size⟩

/-- Counts come off the stack one by one. -/
theorem popCounts {n : Nat} {counts : List Int32} {Q : List Int32 → Activation → Machine → Prop}
    (ha : a.FitsAt index ⟨locals, List.replicate n .integer ++ S⟩)
    (h : ∀ (counts : List Int32) (b : Activation), b.FitsAt index ⟨locals, S⟩ → Q counts b m) :
    Gives R (Step.popCounts n counts) a m Q := by
  induction n generalizing a counts with
  | zero => exact h counts a ha
  | succ n ih => exact bind (popInt ha fun k b hb _ => ih hb)

/-- Arguments are taken off in the order of their types. -/
theorem popArguments {taken : List SlotType} {count : Nat}
    {Q : List Value → Activation → Machine → Prop} (ha : a.FitsAt index ⟨locals, taken ++ S⟩)
    (hcount : taken.length = count)
    (h : ∀ b : Activation, b.FitsAt index ⟨locals, S⟩ → Q (a.stack.take count).reverse b m) :
    Gives R (Step.popArguments count) a m Q := by
  have hlength := ha.fits.stack.length_eq
  simp only [List.length_append] at hlength
  have hdrop := List.forall₂_drop count ha.fits.stack
  simp only [← hcount, List.drop_left] at hdrop
  rw [Gives, popArguments_eq a m (by omega)]
  refine h _ ⟨ha.index_eq, ha.fits.locals, ?_, ha.fits.size⟩
  rw [← hcount]
  exact hdrop

/-! ### Locals -/

/-- A variable that holds something is loaded. -/
theorem load {slot : Nat} {Q : Value → Activation → Machine → Prop} (hv : a.valueAt slot ≠ .top)
    (h : Q (a.valueAt slot) a m) : Gives R (Step.load slot) a m Q := by
  have hrun : Step.load slot a m = .ok (a.valueAt slot, a) m := by
    simp only [Step.load, Bind.bind, StateT.bind, MonadState.get, getThe, MonadStateOf.get,
      StateT.get, EStateM.bind, Pure.pure, EStateM.pure]
    cases hslot : a.valueAt slot with
    | top => exact absurd hslot hv
    | _ =>
      rw [show a.locals.getD slot .top = _ from hslot]
      rfl
  rw [Gives, hrun]
  exact h

end Gives

/-! ## Families of instructions -/

/-- The computation ends with an activation that fits the frame. -/
def Fitting (index : Nat) (f : Frame) : Unit → Activation → Machine → Prop :=
  fun _ b _ => b.FitsAt index f

/-- Pushing is all that a computation does at last. -/
theorem Gives.put {t : SlotType} {v : Value} (ha : a.FitsAt index ⟨locals, S⟩) (hv : t.Admits v) :
    Gives R (Step.push v) a m (Fitting index ⟨locals, t :: S⟩) := .push ha hv fun _ hb => hb

/-- Arithmetic leaves a number of its own kind. -/
theorem arith_fits (op : ArithOp) (kind : NumericKind)
    (ha : a.FitsAt index ⟨locals, kind.slot :: kind.slot :: S⟩) :
    Gives R (arith op kind) a m (Fitting index ⟨locals, kind.slot :: S⟩) := by
  cases kind with
  | int =>
    exact .bind (.popInt ha fun _ _ hb _ => .bind (.popInt hb fun _ _ hc _ =>
      .bind (.quotient fun r _ => .put hc ⟨r, rfl⟩)))
  | long =>
    exact .bind (.popLong ha fun _ _ hb => .bind (.popLong hb fun _ _ hc =>
      .bind (.quotient fun r _ => .put hc ⟨r, rfl⟩)))
  | float =>
    exact .bind (.popFloat ha fun _ _ hb => .bind (.popFloat hb fun _ _ hc => .put hc ⟨_, rfl⟩))
  | double =>
    exact .bind (.popDouble ha fun _ _ hb => .bind (.popDouble hb fun _ _ hc => .put hc ⟨_, rfl⟩))

/-- A negation leaves a number of its own kind. -/
theorem neg_fits (kind : NumericKind) (ha : a.FitsAt index ⟨locals, kind.slot :: S⟩) :
    Gives R (neg kind) a m (Fitting index ⟨locals, kind.slot :: S⟩) := by
  cases kind with
  | int => exact .bind (.popInt ha fun _ _ hb _ => .put hb ⟨_, rfl⟩)
  | long => exact .bind (.popLong ha fun _ _ hb => .put hb ⟨_, rfl⟩)
  | float => exact .bind (.popFloat ha fun _ _ hb => .put hb ⟨_, rfl⟩)
  | double => exact .bind (.popDouble ha fun _ _ hb => .put hb ⟨_, rfl⟩)

/-- A shift takes a distance and leaves a number of its own kind. -/
theorem shift_fits (op : ShiftOp) (kind : IntegralKind)
    (ha : a.FitsAt index ⟨locals, .integer :: kind.slot :: S⟩) :
    Gives R (shift op kind) a m (Fitting index ⟨locals, kind.slot :: S⟩) := by
  cases kind with
  | int => exact .bind (.popInt ha fun _ _ hb _ => .bind (.popInt hb fun _ _ hc _ => .put hc ⟨_, rfl⟩))
  | long => exact .bind (.popInt ha fun _ _ hb _ => .bind (.popLong hb fun _ _ hc => .put hc ⟨_, rfl⟩))

/-- A bitwise operation leaves a number of its own kind. -/
theorem bitwise_fits (op : BitOp) (kind : IntegralKind)
    (ha : a.FitsAt index ⟨locals, kind.slot :: kind.slot :: S⟩) :
    Gives R (bitwise op kind) a m (Fitting index ⟨locals, kind.slot :: S⟩) := by
  cases kind with
  | int => exact .bind (.popInt ha fun _ _ hb _ => .bind (.popInt hb fun _ _ hc _ => .put hc ⟨_, rfl⟩))
  | long => exact .bind (.popLong ha fun _ _ hb => .bind (.popLong hb fun _ _ hc => .put hc ⟨_, rfl⟩))

/-- A conversion leaves a number of the kind that it converts to. -/
theorem convert_fits (c : Conversion) (ha : a.FitsAt index ⟨locals, c.slots.1 :: S⟩) :
    Gives R (convert c) a m (Fitting index ⟨locals, c.slots.2 :: S⟩) := by
  cases c with
  | intToLong | intToFloat | intToDouble | intToByte | intToChar | intToShort =>
    exact .bind (.popInt ha fun _ _ hb _ => .put hb ⟨_, rfl⟩)
  | longToInt | longToFloat | longToDouble =>
    exact .bind (.popLong ha fun _ _ hb => .put hb ⟨_, rfl⟩)
  | floatToInt | floatToLong | floatToDouble =>
    exact .bind (.popFloat ha fun _ _ hb => .put hb ⟨_, rfl⟩)
  | doubleToInt | doubleToLong | doubleToFloat =>
    exact .bind (.popDouble ha fun _ _ hb => .put hb ⟨_, rfl⟩)

/-- A comparison leaves an integer. -/
theorem compareFloat_fits (nan : NaNOrder) (kind : FloatKind)
    (ha : a.FitsAt index ⟨locals, kind.slot :: kind.slot :: S⟩) :
    Gives R (compareFloat nan kind) a m (Fitting index ⟨locals, .integer :: S⟩) := by
  cases kind with
  | float =>
    exact .bind (.popFloat ha fun _ _ hb => .bind (.popFloat hb fun _ _ hc => .put hc ⟨_, rfl⟩))
  | double =>
    exact .bind (.popDouble ha fun _ _ hb => .bind (.popDouble hb fun _ _ hc => .put hc ⟨_, rfl⟩))

/-- Copies go where the frame says. -/
theorem copyWords_fits {count under : Nat} (hcount : count ≤ 2) (hunder : under ≤ 2)
    {types copied between rest stack : List SlotType} (ha : a.FitsAt index ⟨locals, types⟩)
    (hne : ∀ t ∈ types, t ≠ .top) (hcopied : Frame.popWords count types = .ok (copied, stack))
    (hbetween : Frame.popWords under stack = .ok (between, rest)) :
    Gives R (copyWords count under) a m
      (Fitting index ⟨locals, copied ++ between ++ copied ++ rest⟩) := by
  have hne' : ∀ t ∈ stack, t ≠ .top := by
    intro t ht
    refine hne t ?_
    rw [Frame.popWords_eq hcopied]
    exact List.mem_append_right _ ht
  refine .bind (.popWords hcount hcopied hne ha fun vs b hvs hb => ?_)
  refine .bind (.popWords hunder hbetween hne' hb fun us c hus hc => ?_)
  refine .pushAll hc ?_ fun _ hb => hb
  simp only [List.reverse_append, List.reverse_reverse, ← List.append_assoc]
  exact List.rel_append (List.rel_append hvs hus) hvs

/-- Values are rearranged as their types are. -/
theorem rearrange_fits {op : StackOp} {types : List SlotType} {f' : Frame}
    (ha : a.FitsAt index ⟨locals, types⟩) (hne : ∀ t ∈ types, t ≠ .top)
    (h : Frame.rearrange ⟨locals, types⟩ op = .ok f') :
    Gives R (rearrange op) a m (Fitting index f') := by
  have hcopy : ∀ {count under : Nat}, count ≤ 2 → under ≤ 2 →
      (do
        let copied ← Frame.popWords count types
        let between ← Frame.popWords under copied.2
        return ⟨locals, copied.1 ++ between.1 ++ copied.1 ++ between.2⟩ :
          Except FrameError Frame) = .ok f' → Gives R (copyWords count under) a m (Fitting index f') := by
    intro count under hcount hunder h
    obtain ⟨⟨copied, stack⟩, hcopied, h⟩ := Except.bind_ok.mp h
    obtain ⟨⟨between, rest⟩, hbetween, h⟩ := Except.bind_ok.mp h
    cases h
    exact copyWords_fits hcount hunder ha hne hcopied hbetween
  have hdrop : ∀ {count : Nat}, count ≤ 2 →
      (do
        let taken ← Frame.popWords count types
        return ⟨locals, taken.2⟩ : Except FrameError Frame) = .ok f' →
          Gives R (discard (popWords count)) a m (Fitting index f') := by
    intro count hcount h
    obtain ⟨⟨taken, stack⟩, htaken, h⟩ := Except.bind_ok.mp h
    cases h
    exact .discard (.popWords hcount htaken hne ha fun _ _ _ hb => hb)
  cases op with
  | pop => exact hdrop (by decide) h
  | pop2 => exact hdrop (by decide) h
  | dup | dupX1 | dupX2 | dup2 | dup2X1 | dup2X2 => exact hcopy (by decide) (by decide) h
  | swap =>
    obtain ⟨⟨t, stack⟩, ht, h⟩ := Except.bind_ok.mp h
    obtain ⟨⟨u, rest⟩, hu, h⟩ := Except.bind_ok.mp h
    cases h
    obtain ⟨rfl, -⟩ := Frame.popNarrow_eq ht
    obtain ⟨rfl, -⟩ := Frame.popNarrow_eq hu
    exact .bind (.pop ha fun _ _ hv hb _ _ => .bind (.pop hb fun _ _ hw hc _ _ =>
      .pushAll hc (.cons hw (.cons hv .nil)) fun _ hb => hb))

end Step

/-! ## Locals -/

/-- What a store leaves in a slot. -/
theorem Frame.storeLocal_getElem? {locals locals' : List SlotType} {slot k : Nat} {t u : SlotType}
    (h : storeLocal locals slot t = .ok locals') (hu : locals'[k]? = some u) :
    (k = slot ∧ u = t) ∨ u = .top ∨
      (k ≠ slot ∧ ¬ (t.width = 2 ∧ k = slot + 1) ∧ locals[k]? = some u ∧
        (k + 1 = slot → u.width ≠ 2)) := by
  simp only [storeLocal] at h
  split at h
  · cases h
  cases h
  have hruined : ∀ {k u}, (ruinBefore locals slot)[k]? = some u →
      u = .top ∨ (locals[k]? = some u ∧ (k + 1 = slot → u.width ≠ 2)) := by
    intro j w hw
    simp only [ruinBefore] at hw
    split at hw
    · rw [List.getElem?_set] at hw
      split at hw
      · split at hw
        · cases hw
          exact .inl rfl
        · cases hw
      · exact .inr ⟨hw, fun hj => by omega⟩
    · rename_i hkeep
      refine .inr ⟨hw, fun hj hwide => hkeep ?_⟩
      subst hj
      simp [hw, hwide]
  by_cases hk : k = slot
  · subst hk
    generalize (if t.width = 2 then (ruinBefore locals k).set (k + 1) .top else
      ruinBefore locals k) = base at hu
    rw [List.getElem?_set] at hu
    simp only [if_true] at hu
    split at hu
    · cases hu
      exact .inl ⟨rfl, rfl⟩
    · cases hu
  · rw [List.getElem?_set_ne (Ne.symm hk)] at hu
    by_cases hsecond : t.width = 2 ∧ k = slot + 1
    · obtain ⟨hwide, rfl⟩ := hsecond
      rw [if_pos hwide, List.getElem?_set] at hu
      simp only [if_true] at hu
      split at hu
      · cases hu
        exact .inr (.inl rfl)
      · cases hu
    · have hu' : (ruinBefore locals slot)[k]? = some u := by
        split at hu
        · rename_i hwide
          rwa [List.getElem?_set_ne (fun heq => hsecond ⟨hwide, heq.symm⟩)] at hu
        · exact hu
      rcases hruined hu' with htop | ⟨hsame, hbelow⟩
      · exact .inr (.inl htop)
      · exact .inr (.inr ⟨hk, hsecond, hsame, hbelow⟩)

/-- A store stays within the variables of the frame. -/
theorem Frame.storeLocal_size {locals locals' : List SlotType} {slot : Nat} {t : SlotType}
    (h : storeLocal locals slot t = .ok locals') :
    slot + t.width ≤ locals.length ∧ locals'.length = locals.length := by
  simp only [storeLocal] at h
  split at h
  · cases h
  · cases h
    refine ⟨by omega, ?_⟩
    split <;> simp [ruinBefore_length]

namespace Activation

variable {a : Activation} {slot : Nat} {locals locals' : List SlotType}

/-- A store adds variables up to its own slot at most. -/
theorem store_size (a : Activation) (slot : Nat) (v : Value) :
    (a.store slot v).locals.size = max a.locals.size (slot + v.width) := by
  simp only [store]
  split <;> split <;> simp <;> omega

/-- A value goes into a local as the frame says. -/
theorem FitsAt.store {index : Nat} {stack : List SlotType} {t : SlotType} {v : Value}
    (ha : a.FitsAt index ⟨locals, stack⟩) (hv : t.Admits v) (ht : t ≠ .top)
    (h : Frame.storeLocal locals slot t = .ok locals') :
    (a.store slot v).FitsAt index ⟨locals', stack⟩ := by
  have hwidth := hv.width_eq ht
  obtain ⟨hfits, hlength⟩ := Frame.storeLocal_size h
  refine ⟨ha.index_eq, fun k u hu => ?_, ha.fits.stack, ?_⟩
  · by_cases htop : u = .top
    · rw [htop]
      exact trivial
    rw [valueAt_store]
    rcases Frame.storeLocal_getElem? h hu with ⟨rfl, rfl⟩ | hu | ⟨hk, hsecond, hu, hbelow⟩
    · rw [if_pos rfl]
      exact hv
    · exact absurd hu htop
    · have hk' := ha.fits.locals k u hu
      rw [if_neg hk, if_neg (fun hw => hsecond ⟨hwidth ▸ hw.1, hw.2⟩),
        if_neg (fun hw => hbelow hw.1 (hk'.width_eq htop ▸ hw.2))]
      exact hk'
  · have hsize : a.locals.size ≤ locals.length := ha.fits.size
    rw [store_size, hlength, hwidth]
    omega

/-- A number is put in the place of another. -/
theorem FitsAt.increment {index : Nat} {stack : List SlotType} {n : Int32}
    (ha : a.FitsAt index ⟨locals, stack⟩) (hhalves : Frame.HalvesMatch locals)
    (hslot : locals[slot]? = some .integer) :
    (a.store slot (.int n)).FitsAt index ⟨locals, stack⟩ := by
  refine ⟨ha.index_eq, fun k u hu => ?_, ha.fits.stack, ?_⟩
  · by_cases htop : u = .top
    · rw [htop]
      exact trivial
    rw [valueAt_store]
    by_cases hk : k = slot
    · subst hk
      rw [hslot] at hu
      cases hu
      rw [if_pos rfl]
      exact ⟨n, rfl⟩
    · have hk' := ha.fits.locals k u hu
      rw [if_neg hk, if_neg (fun hw => by cases hw.1), if_neg]
      · exact hk'
      -- a wide local below would make the slot unusable
      · rintro ⟨rfl, hwide⟩
        have hnext := hhalves k u hu ((hk'.width_eq htop).symm.trans hwide)
        rw [hslot] at hnext
        cases hnext
  · have hlt := (List.getElem?_eq_some_iff.mp hslot).1
    have hsize : a.locals.size ≤ locals.length := ha.fits.size
    rw [store_size]
    simp only [Value.width]
    omega

/-- A frame in which a constructor has initialized its receiver admits the same values. -/
theorem FitsAt.replaceAll {index : Nat} {f : Frame} {old : SlotType} {c : ClassName}
    (ha : a.FitsAt index f) (hold : old.isUninitialized = true) :
    a.FitsAt index (f.replaceAll old (.ofClass c)) := by
  have hreplace : ∀ (t : SlotType) v, t.Admits v → (if t = old then .ofClass c else t).Admits v := by
    intro t v hv
    split
    · rename_i heq
      subst heq
      cases t with
      | uninitializedThis | uninitialized _ _ => exact hv
      | _ => cases hold
    · exact hv
  refine ⟨ha.index_eq, fun k u hu => ?_, ?_, ?_⟩
  · simp only [Frame.replaceAll, List.getElem?_map, Option.map_eq_some_iff] at hu
    obtain ⟨t, ht, rfl⟩ := hu
    exact hreplace t _ (ha.fits.locals k t ht)
  · simp only [Frame.replaceAll, List.forall₂_map_left_iff]
    exact ha.fits.stack.imp hreplace
  · simpa [Frame.replaceAll] using ha.fits.size

end Activation

/-! ## Instructions -/

namespace Frame

variable {locals stack : List SlotType} {context : MethodContext} {index : Nat} {f' : Frame}

/-- An instruction that always takes and puts the same. -/
theorem step_fixed {i : Instruction} {taken put : List SlotType}
    (hfixed : i.fixedEffect? = some (taken, put))
    (h : step context index ⟨locals, stack⟩ i = .ok f') :
    ∃ rest, stack = taken ++ rest ∧ f' = ⟨locals, put ++ rest⟩ := by
  simp only [step, hfixed] at h
  obtain ⟨rest, hpop, h⟩ := Except.bind_ok.mp h
  cases h
  exact ⟨rest, popExactly_eq hpop, rfl⟩

theorem step_newMultiArray {f : Frame} {type : RefType} {dimensions : Nat} :
    step context index f (.newMultiArray type dimensions) =
      if (dimensions = 0 || !type.isArray) = true then .error .notArrayType
      else do
        let stack ← popExactly (List.replicate dimensions .integer) f.stack
        return { f with stack := .object type :: stack } := rfl

theorem step_returnVoid {f : Frame} :
    step context index f .returnVoid =
      if context.result.isNone = true then .ok f else .error .invalidType := rfl

/-- The values that parameters take off the stack. -/
theorem popFitting_eq {parameters : List FieldType} {rest : List SlotType}
    (h : popFitting parameters stack = .ok rest) :
    ∃ taken, stack = taken ++ rest ∧ taken.length = parameters.length := by
  obtain ⟨taken, htaken⟩ := popFitting_suffix h
  refine ⟨taken, htaken.symm, ?_⟩
  have hlength := popFitting_length h
  rw [← htaken, List.length_append] at hlength
  omega

/-- One argument is the top of the stack. -/
theorem popFitting_single {t : FieldType} {rest : List SlotType}
    (h : popFitting [t] stack = .ok rest) : ∃ u, stack = u :: rest := by
  obtain ⟨taken, rfl, hlength⟩ := popFitting_eq h
  obtain ⟨u, rfl⟩ := List.length_eq_one_iff.mp hlength
  exact ⟨u, rfl⟩

/-- What is popped was on top. -/
theorem pop_eq {t : SlotType} {rest : List SlotType} (h : pop stack = .ok (t, rest)) :
    stack = t :: rest := by
  cases stack with
  | nil => cases h
  | cons u types =>
    cases h
    rfl

/-- A returned value was on top of the stack. -/
theorem returnValue_eq {kind : ValueKind}
    (h : returnValue ⟨locals, stack⟩ context kind = .ok f') :
    ∃ t rest, stack = t :: rest ∧ f' = ⟨locals, rest⟩ := by
  simp only [returnValue] at h
  split at h
  · obtain ⟨rest, hpop, h⟩ := Except.bind_ok.mp h
    split at h
    · cases h
      exact ⟨_, rest, popExactly_eq hpop, rfl⟩
    · cases h
  · obtain ⟨⟨t, rest⟩, hpop, hresult⟩ := Except.bind_ok.mp h
    obtain rfl := pop_eq hpop
    refine ⟨t, rest, rfl, ?_⟩
    clear h
    split at hresult
    · split at hresult
      · cases hresult
        rfl
      · cases hresult
    · cases hresult

/-- What is popped as an array is a reference. -/
theorem popArray_isReference {rest : List SlotType} {array : Option RefType}
    (h : popArray stack = .ok (array, rest)) :
    ∃ t, stack = t :: rest ∧ t.isReference = true ∧ (array = none → t = .null) := by
  rcases popArray_eq h with ⟨-, heq⟩ | ⟨type, rfl, -, heq⟩
  · exact ⟨.null, heq, rfl, fun _ => rfl⟩
  · exact ⟨.object type, heq, rfl, nofun⟩

end Frame

namespace Step

variable {R : RunError → Machine → Prop} {a : Activation} {m : Machine} {index : Nat}
  {locals stack : List SlotType} {f f' : Frame} {callees : Callees}

/-- An instruction goes on, with an activation that fits the frame. -/
def Ends (i : Instruction) (index : Nat) (f : Frame) : Progress → Activation → Machine → Prop :=
  fun p b _ => i.Continues p ∧ b.FitsAt index f

/-- An instruction that falls through ends where control goes on. -/
theorem next_fits {i : Instruction} {x : Step Unit} (hfalls : i.fallsThrough = true)
    (h : Gives R x a m (Fitting index f)) : Gives R (andNext x) a m (Ends i index f) :=
  .andNext (h.mono fun _ _ _ hb => ⟨hfalls, hb⟩)

/-- A loaded element is of the kind that the instruction says. -/
theorem arrayLoad_fits {element : ElementKind} (ha : a.FitsAt index ⟨locals, stack⟩)
    (hd : callees.Delivers (.arrayLoad element) a m)
    (h : Frame.arrayLoad ⟨locals, stack⟩ element = .ok f') :
    Gives R arrayLoad a m (Fitting index f') := by
  obtain ⟨types, hindex, h⟩ := Except.bind_ok.mp h
  obtain ⟨⟨array, rest⟩, harray, h⟩ := Except.bind_ok.mp h
  obtain rfl := Frame.popExactly_eq hindex
  obtain ⟨t, rfl, ht, hnull⟩ := Frame.popArray_isReference harray
  refine .bind (.popInt ha fun k b hb hk => ?_)
  refine .bind (.popRef hb ht fun v c hv hc hstack => ?_)
  refine .bind (.mild (.arrayElement _ _) fun w m' hw => ?_)
  have hw' : element.Admits w := hd k v c.stack w m' (hk.trans (congrArg _ hstack)) hw
  simp only at h
  split at h
  · rename_i u hslot
    cases h
    rw [ElementKind.Admits, hslot] at hw'
    exact .put hc hw'
  · -- there is no element of null
    have hv' := hb.fits.stack
    rw [hstack, hnull rfl] at hv'
    cases hv' with
    | cons hv' _ =>
      obtain rfl : v = .null := hv'
      cases hw
  · rename_i type hslot
    split at h
    · cases h
      rw [ElementKind.Admits, hslot] at hw'
      exact .put hc hw'
    · cases h

/-- A store into an array leaves the rest of the stack. -/
theorem arrayStore_fits {element : ElementKind} (ha : a.FitsAt index ⟨locals, stack⟩)
    (h : Frame.arrayStore ⟨locals, stack⟩ element = .ok f') :
    Gives R (arrayStore element) a m (Fitting index f') := by
  obtain ⟨⟨u, stack₁⟩, hvalue, h⟩ := Except.bind_ok.mp h
  obtain ⟨stack₂, hindex, h⟩ := Except.bind_ok.mp h
  obtain ⟨⟨array, rest⟩, harray, h⟩ := Except.bind_ok.mp h
  cases h
  obtain ⟨rfl, -⟩ := Frame.popWhere_eq hvalue
  obtain rfl := Frame.popExactly_eq hindex
  obtain ⟨t, rfl, ht, -⟩ := Frame.popArray_isReference harray
  exact .bind (.pop ha fun _ _ _ hb _ _ => .bind (.popInt hb fun _ _ hc _ =>
    .bind (.popRef hc ht fun _ _ _ hd _ => .mild (.setArrayElement _ _ _) fun _ _ _ => hd)))

/-- An increment leaves an integer in its variable. -/
theorem increment_fits {slot : Nat} {delta : Int16} (hhalves : Frame.HalvesMatch locals)
    (ha : a.FitsAt index ⟨locals, stack⟩) (hslot : locals[slot]? = some .integer) :
    Gives R (increment slot delta) a m (Fitting index ⟨locals, stack⟩) := by
  obtain ⟨n, hn⟩ := ha.fits.locals slot .integer hslot
  refine .bind (.load (by rw [hn]; exact nofun) ?_)
  rw [hn]
  exact ha.increment hhalves hslot

/-- The value of a call goes on the stack. -/
theorem result_fits {result : Option FieldType} {value : Option Value}
    (ha : a.FitsAt index ⟨locals, stack⟩)
    (hvalue : Option.Rel (fun t v => (SlotType.ofField t).Admits v) result value) :
    Gives R (match value with
      | some v => push v
      | none => return ()) a m (Fitting index ⟨locals, Frame.pushResult result stack⟩) := by
  cases hvalue with
  | some hv => exact .put ha hv
  | none => exact .pure ha

/-- A call takes its arguments off the stack and puts its result on it. -/
theorem call_fits {kind : CallKind} {ref : MethodRef} (taken : List SlotType)
    (ha : a.FitsAt index ⟨locals, taken ++ stack⟩) (hd : callees.Delivers (.invoke kind ref) a m)
    (hcount : taken.length = ref.descriptor.parameters.length + if kind = .static then 0 else 1) :
    Gives (callees.Raises (.invoke kind ref) a m) (execute callees (.invoke kind ref)) a m
      (Ends (.invoke kind ref) index
        ⟨locals, Frame.pushResult ref.descriptor.result stack⟩) := by
  refine next_fits rfl (.bind (.popArguments ha hcount fun b hb => ?_))
  exact .bind (.lift (fun value m' hvalue => result_fits hb (hd value m' hvalue))
    fun e m' he _ => he)

/-- A call leaves what the method returns. -/
theorem invoke_fits {kind : CallKind} {ref : MethodRef} {context : MethodContext}
    (ha : a.FitsAt index ⟨locals, stack⟩) (hd : callees.Delivers (.invoke kind ref) a m)
    (h : Frame.invoke ⟨locals, stack⟩ context kind ref = .ok f') :
    Gives (callees.Raises (.invoke kind ref) a m) (execute callees (.invoke kind ref)) a m
      (Ends (.invoke kind ref) index f') := by
  obtain ⟨rest, hpop, h⟩ := Except.bind_ok.mp h
  obtain ⟨taken, rfl, htaken⟩ := Frame.popFitting_eq hpop
  rw [List.length_reverse] at htaken
  -- a receiver is one more value below the arguments
  have hreceiver : ∀ {t : SlotType} {types : List SlotType}, rest = t :: types → kind ≠ .static →
      Gives (callees.Raises (.invoke kind ref) a m) (execute callees (.invoke kind ref)) a m
        (Ends (.invoke kind ref) index
          ⟨locals, Frame.pushResult ref.descriptor.result types⟩) := by
    rintro t types rfl hkind
    refine call_fits (taken ++ [t]) ?_ hd ?_
    · rw [List.append_assoc]
      exact ha
    · rw [List.length_append, htaken, if_neg hkind]
      rfl
  split at h
  · rename_i hinit
    simp only [Bool.and_eq_true, decide_eq_true_eq] at hinit
    have hkind : kind ≠ .static := by
      rw [hinit.1]
      exact nofun
    cases rest with
    | nil => cases h
    | cons t types =>
      have hinitialized : ∀ {c : ClassName}, t.isUninitialized = true →
          (if ref.descriptor.result.isSome = true then .error .invalidType else
            .ok (Frame.replaceAll ⟨locals, types⟩ t (.ofClass c)) : Except FrameError Frame) = .ok f' →
          Gives (callees.Raises (.invoke kind ref) a m) (execute callees (.invoke kind ref)) a m
            (Ends (.invoke kind ref) index f') := by
        intro c ht h
        split at h
        · cases h
        · rename_i hvoid
          cases h
          refine (hreceiver rfl hkind).mono fun p b m' hb => ⟨hb.1, ?_⟩
          rw [Option.not_isSome_iff_eq_none.mp hvoid] at hb
          exact hb.2.replaceAll ht
      cases t with
      | uninitializedThis => exact hinitialized rfl h
      | uninitialized name k => exact hinitialized rfl h
      | _ => cases h
  · split at h
    · rename_i hkind
      cases h
      exact call_fits taken ha hd (by rw [htaken, if_pos hkind]; rfl)
    · rename_i hkind
      obtain ⟨⟨t, types⟩, hpop', h⟩ := Except.bind_ok.mp h
      cases h
      exact hreceiver (Frame.popWhere_eq hpop').1 hkind

/-- A conditional jump goes to its target or on. -/
theorem continues_jumpIf {i : Instruction} {target : Label} (hfalls : i.fallsThrough = true)
    (htargets : i.targets = [target]) (holds : Bool) : i.Continues (jumpIf holds target) := by
  cases holds with
  | false => exact hfalls
  | true =>
    show target ∈ i.targets
    rw [htargets]
    exact List.mem_singleton_self target

/-- A table goes to one of its targets. -/
theorem tableTarget_mem (low : Int32) (default : Label) (targets : List Label) (n : Int32) :
    tableTarget low default targets n ∈ (Instruction.tableSwitch low default targets).targets := by
  simp only [tableTarget, Instruction.targets]
  split
  · rw [List.getD_eq_getElem?_getD]
    cases hget : targets[(n.toInt - low.toInt).toNat]? with
    | none => exact List.mem_append_right _ (List.mem_singleton_self default)
    | some l => exact List.mem_append_left _ (List.mem_of_getElem? hget)
  · exact List.mem_append_right _ (List.mem_singleton_self default)

/-- A lookup goes to one of its targets. -/
theorem lookupTarget_mem (default : Label) (cases : List (Int32 × Label)) (n : Int32) :
    (cases.lookup n).getD default ∈ (Instruction.lookupSwitch default cases).targets := by
  simp only [Instruction.targets]
  cases hfound : cases.lookup n with
  | none => exact List.mem_append_right _ (List.mem_singleton_self default)
  | some l =>
    obtain ⟨before, after, hsplit, -⟩ := List.lookup_eq_some_iff.mp hfound
    refine List.mem_append_left _ (List.mem_map.mpr ⟨(n, l), ?_, rfl⟩)
    rw [hsplit]
    exact List.mem_append_right _ (List.mem_cons_self ..)

/-- **Instructions.** An instruction that the frame admits goes on with an activation that fits the
frame after it; a fault is never its own. -/
theorem execute_fits {i : Instruction} {context : MethodContext} {size : Nat}
    (hf : f.WellFormed size) (ha : a.FitsAt index f) (hd : callees.Delivers i a m)
    (h : f.step context index i = .ok f') :
    Gives (callees.Raises i a m) (execute callees i) a m (Ends i index f') := by
  obtain ⟨locals, stack⟩ := f
  cases i with
  | label _ | lineNumber _ | nop =>
    -- instructions of fixed effect all begin in this way: what they take lies on top of the stack
    obtain ⟨rest, rfl, rfl⟩ := Frame.step_fixed rfl h
    exact .pure ⟨rfl, ha⟩
  | goto target =>
    obtain ⟨rest, rfl, rfl⟩ := Frame.step_fixed rfl h
    exact .pure ⟨List.mem_singleton_self target, ha⟩
  | pushNull =>
    obtain ⟨rest, rfl, rfl⟩ := Frame.step_fixed rfl h
    exact next_fits rfl (.put ha rfl)
  | pushInt _ | pushLong _ | pushFloat _ | pushDouble _ =>
    obtain ⟨rest, rfl, rfl⟩ := Frame.step_fixed rfl h
    exact next_fits rfl (.put ha ⟨_, rfl⟩)
  | pushConstant c =>
    obtain ⟨rest, rfl, rfl⟩ := Frame.step_fixed rfl h
    cases c with
    | string s =>
      exact next_fits rfl (.bind (.mild (.intern s) fun r _ _ => .put ha (.inr ⟨r, rfl⟩)))
    | type _ => exact .mild (.fail nofun) fun _ _ hr => nomatch hr
    | methodType _ => exact .mild (.fail nofun) fun _ _ hr => nomatch hr
  | load kind slot =>
    obtain ⟨t, ht, h⟩ := Except.bind_ok.mp h
    split at h
    · rename_i hkind
      cases h
      have hslot : locals[slot]? = some t := Frame.local?_ok.mp ht
      have hv := ha.fits.locals slot t hslot
      exact next_fits rfl (.bind (.load (hv.ne_top (Frame.holdsKind_ne_top hkind)) (.put ha hv)))
    · cases h
  | store kind slot =>
    obtain ⟨⟨t, rest⟩, hpop, h⟩ := Except.bind_ok.mp h
    obtain ⟨locals', hstore, h⟩ := Except.bind_ok.mp h
    cases h
    obtain ⟨rfl, hkind⟩ := Frame.popWhere_eq hpop
    exact next_fits rfl (.bind (.pop ha fun v b hv hb _ _ =>
      hb.store hv (Frame.holdsKind_ne_top hkind) hstore))
  | arrayLoad element => exact next_fits rfl (arrayLoad_fits ha hd h)
  | arrayStore element => exact next_fits rfl (arrayStore_fits ha h)
  | stack op => exact next_fits rfl (rearrange_fits ha hf.stack h)
  | arith op kind =>
    obtain ⟨rest, rfl, rfl⟩ := Frame.step_fixed rfl h
    exact next_fits rfl (arith_fits op kind ha)
  | neg kind =>
    obtain ⟨rest, rfl, rfl⟩ := Frame.step_fixed rfl h
    exact next_fits rfl (neg_fits kind ha)
  | shift op kind =>
    obtain ⟨rest, rfl, rfl⟩ := Frame.step_fixed rfl h
    exact next_fits rfl (shift_fits op kind ha)
  | bitwise op kind =>
    obtain ⟨rest, rfl, rfl⟩ := Frame.step_fixed rfl h
    exact next_fits rfl (bitwise_fits op kind ha)
  | increment slot delta =>
    obtain ⟨t, ht, h⟩ := Except.bind_ok.mp h
    split at h
    · rename_i hinteger
      cases h
      subst hinteger
      have hslot : locals[slot]? = some .integer := Frame.local?_ok.mp ht
      exact next_fits rfl (increment_fits hf.halves ha hslot)
    · cases h
  | convert c =>
    obtain ⟨rest, rfl, rfl⟩ := Frame.step_fixed rfl h
    exact next_fits rfl (convert_fits c ha)
  | compareLong =>
    obtain ⟨rest, rfl, rfl⟩ := Frame.step_fixed rfl h
    exact next_fits rfl (.bind (.popLong ha fun _ _ hb => .bind (.popLong hb fun _ _ hc =>
      .put hc ⟨_, rfl⟩)))
  | compareFloat kind nan =>
    obtain ⟨rest, rfl, rfl⟩ := Frame.step_fixed rfl h
    exact next_fits rfl (compareFloat_fits nan kind ha)
  -- what others answer is known by `hd` only: fields, elements and results are as declared
  | getStatic field =>
    obtain ⟨rest, rfl, rfl⟩ := Frame.step_fixed rfl h
    exact next_fits rfl (.bind (.lift (fun _ m₁ hready => .bind (.mild (.getStatic field)
      fun v m' hv => .put ha (hd m₁ v m' hready hv))) fun e m' he _ => he))
  | putStatic field =>
    obtain ⟨rest, hpop, h⟩ := Except.bind_ok.mp h
    cases h
    obtain ⟨t, rfl⟩ := Frame.popFitting_single hpop
    exact next_fits rfl (.bind (.lift (fun _ _ _ => .bind (.pop ha fun _ _ _ hb _ _ =>
      .mild (.putStatic field _) fun _ _ _ => hb)) fun e m' he _ => he))
  | getField field =>
    obtain ⟨⟨t, rest⟩, hpop, h⟩ := Except.bind_ok.mp h
    cases h
    obtain ⟨rfl, ht⟩ := Frame.popWhere_eq hpop
    exact next_fits rfl (.bind (.popObject ha ht fun r b hb hstack => .bind (.mild (.getField r field)
      fun v m' hv => .put hb (hd r b.stack v m' hstack hv))))
  | putField field =>
    obtain ⟨rest, hpop, h⟩ := Except.bind_ok.mp h
    obtain ⟨⟨u, rest'⟩, hpop', h⟩ := Except.bind_ok.mp h
    cases h
    obtain ⟨t, rfl⟩ := Frame.popFitting_single hpop
    obtain ⟨rfl, hu⟩ := Frame.popWhere_eq hpop'
    exact next_fits rfl (.bind (.pop ha fun v _ _ hb _ _ => .bind (.popObject hb hu fun r _ hc _ =>
      .mild (.putField r field v) fun _ _ _ => hc)))
  | invoke kind ref => exact invoke_fits ha hd h
  | invokeDynamic site => exact .mild (.fail nofun) fun _ _ hr => nomatch hr
  | new owner =>
    cases h
    exact next_fits rfl (.bind (.lift (fun _ m₁ _ => .bind (.mild (.newInstance owner)
      fun r _ _ => .put ha (.inr ⟨r, rfl⟩))) fun e m' he _ => he))
  | newArray element =>
    obtain ⟨rest, rfl, rfl⟩ := Frame.step_fixed rfl h
    exact next_fits rfl (.bind (.popInt ha fun _ _ hb _ => .bind (.mild (.allocateArray _ _)
      fun r _ _ => .put hb (.inr ⟨r, rfl⟩))))
  | newRefArray element =>
    obtain ⟨rest, rfl, rfl⟩ := Frame.step_fixed rfl h
    exact next_fits rfl (.bind (.popInt ha fun _ _ hb _ => .bind (.mild (.allocateArray _ _)
      fun r _ _ => .put hb (.inr ⟨r, rfl⟩))))
  | newMultiArray type dimensions =>
    rw [Frame.step_newMultiArray] at h
    split at h
    · cases h
    · obtain ⟨rest, hpop, h⟩ := Except.bind_ok.mp h
      cases h
      obtain rfl := Frame.popExactly_eq hpop
      exact next_fits rfl (.bind (.popCounts ha fun counts _ hb =>
        .bind (.mild (.allocateArrays type counts) fun r _ _ => .put hb (.inr ⟨r, rfl⟩))))
  | arrayLength =>
    obtain ⟨⟨array, rest⟩, hpop, h⟩ := Except.bind_ok.mp h
    cases h
    obtain ⟨t, rfl, ht, -⟩ := Frame.popArray_isReference hpop
    exact next_fits rfl (.bind (.popObject ha ht fun r _ hb _ => .bind (.mild (.arrayLength r)
      fun _ _ _ => .put hb ⟨_, rfl⟩)))
  | checkCast type =>
    obtain ⟨⟨t, rest⟩, hpop, h⟩ := Except.bind_ok.mp h
    cases h
    obtain ⟨rfl, ht⟩ := Frame.popWhere_eq hpop
    exact next_fits rfl (.bind (.pop ha fun v b hv hb _ _ => .bind (.mild (.checkCast v type)
      fun _ _ _ => .put hb (hv.reference ht))))
  | instanceOf type =>
    obtain ⟨⟨t, rest⟩, hpop, h⟩ := Except.bind_ok.mp h
    cases h
    obtain ⟨rfl, ht⟩ := Frame.popWhere_eq hpop
    refine next_fits rfl (.bind (.pop ha fun v b hv hb _ _ => ?_))
    rcases hv.reference ht with rfl | ⟨r, rfl⟩
    · exact .bind (.pure (.put hb ⟨_, rfl⟩))
    · exact .bind (.mild (.isInstance r type) fun _ _ _ => .put hb ⟨_, rfl⟩)
  | monitorEnter =>
    obtain ⟨⟨t, rest⟩, hpop, h⟩ := Except.bind_ok.mp h
    cases h
    obtain ⟨rfl, ht⟩ := Frame.popWhere_eq hpop
    exact next_fits rfl (.bind (.popObject ha ht fun r b hb _ => .mild (.enterMonitor r)
      fun _ _ _ => hb))
  | monitorExit =>
    obtain ⟨⟨t, rest⟩, hpop, h⟩ := Except.bind_ok.mp h
    cases h
    obtain ⟨rfl, ht⟩ := Frame.popWhere_eq hpop
    exact next_fits rfl (.bind (.popObject ha ht fun r b hb _ => .mild (.exitMonitor r)
      fun _ _ _ => hb))
  | ifZero comparison target =>
    obtain ⟨rest, rfl, rfl⟩ := Frame.step_fixed rfl h
    exact .bind (.popInt ha fun _ _ hb _ => .pure ⟨continues_jumpIf rfl rfl _, hb⟩)
  | ifInt comparison target =>
    obtain ⟨rest, rfl, rfl⟩ := Frame.step_fixed rfl h
    exact .bind (.popInt ha fun _ _ hb _ => .bind (.popInt hb fun _ _ hc _ =>
      .pure ⟨continues_jumpIf rfl rfl _, hc⟩))
  | ifRef equality target =>
    obtain ⟨⟨t, rest⟩, hpop, h⟩ := Except.bind_ok.mp h
    obtain ⟨⟨u, rest'⟩, hpop', h⟩ := Except.bind_ok.mp h
    obtain rfl := Frame.pop_eq hpop
    obtain rfl := Frame.pop_eq hpop'
    simp only at h
    split at h
    · cases h
      exact .bind (.pop ha fun _ _ _ hb _ _ => .bind (.pop hb fun _ _ _ hc _ _ =>
        .pure ⟨continues_jumpIf rfl rfl _, hc⟩))
    · cases h
  | ifNull equality target =>
    obtain ⟨⟨t, rest⟩, hpop, h⟩ := Except.bind_ok.mp h
    cases h
    obtain ⟨rfl, -⟩ := Frame.popWhere_eq hpop
    exact .bind (.pop ha fun _ _ _ hb _ _ => .pure ⟨continues_jumpIf rfl rfl _, hb⟩)
  | jsr _ | ret _ => cases h
  | tableSwitch low default targets =>
    obtain ⟨rest, rfl, rfl⟩ := Frame.step_fixed rfl h
    exact .bind (.popInt ha fun n _ hb _ => .pure ⟨tableTarget_mem low default targets n, hb⟩)
  | lookupSwitch default cases =>
    obtain ⟨rest, rfl, rfl⟩ := Frame.step_fixed rfl h
    exact .bind (.popInt ha fun n _ hb _ => .pure ⟨lookupTarget_mem default cases n, hb⟩)
  | returnValue kind =>
    obtain ⟨t, rest, rfl, rfl⟩ := Frame.returnValue_eq h
    exact .bind (.pop ha fun _ _ _ hb _ _ => .pure ⟨trivial, hb⟩)
  | returnVoid =>
    rw [Frame.step_returnVoid] at h
    split at h
    · cases h
      exact .pure ⟨trivial, ha⟩
    · cases h
  | throw =>
    obtain ⟨⟨t, rest⟩, hpop, h⟩ := Except.bind_ok.mp h
    obtain ⟨rfl, ht⟩ := Frame.popWhere_eq hpop
    exact .bind (.popObject ha ht fun _ _ _ _ => trivial)

end Step

end Resumption
