import Resumption.Analysis.StackMap
import Resumption.Proofs.Analysis.Settling
import Resumption.Proofs.Frame.Offsets
import Resumption.Proofs.Instrument.Conformance

/-!
# Frames stay well-formed while they are computed

The code that saves a frame, and the compact form of a frame, go through its locals from one value to
the next, past the second half of a wide one (`Frame.scan`). A frame in which that second half is not
an unusable slot would hide a local from them.

The stack is kept in a sequence that counts its words as values are taken off and put on
(`Frame.edits`, `Frame.Stacked`), and what is read as the depth of the stack is that count.

* **`Frame.scanFrom_live`**: in a well-formed frame, scans come to every local that is live, once.
* **`Frame.step_edits`**: the changes of an instruction make of the stack before it the stack after it.
* **`Frame.Stacked.regular`**: so the sequence holds the stack, and its count follows from the types.
* **`Flow.Passes`** are the states that an analysis goes through, also if it fails later.
* **`Flow.Passes.upheld`**: what instructions, handlers and merging keep up holds of all frames in
  each of them, and of what the next instruction makes of its frame and what it sends to others.
-/

namespace Resumption

namespace Frame

/-! ## Scans -/

/-- The locals that a scan comes to, from `slot` on; `skip` slots are second halves. -/
def scanFrom (slot : Nat) : (skip : Nat) → List SlotType → List (SlotType × Nat)
  | _, [] => []
  | skip + 1, _ :: rest => scanFrom (slot + 1) skip rest
  | 0, t :: rest => (t, slot) :: scanFrom (slot + 1) (t.width - 1) rest

/-- The locals that a scan comes to, each with its slot. -/
def scan (locals : List SlotType) : List (SlotType × Nat) := scanFrom 0 0 locals

/-- Can the local be used? -/
def live (entry : SlotType × Nat) : Bool := entry.1 ≠ .top

/-- The variables to be saved are picked from the scan. -/
theorem scanFrom_saved (slot skip : Nat) (locals : List SlotType) :
    savedLocalsFrom slot skip locals =
      (scanFrom slot skip locals).filterMap fun (t, slot) => savedLocal? t slot := by
  induction locals generalizing slot skip with
  | nil => cases skip <;> rfl
  | cons t locals ih =>
    cases skip with
    | zero =>
      simp only [savedLocalsFrom, scanFrom, List.filterMap_cons, savedLocal?, ih]
      cases ValueKind.ofSlot? t <;> rfl
    | succ skip => exact ih _ _

/-- The table is written from the scan. -/
theorem scanFrom_compact (slot skip : Nat) (kept locals : List SlotType) :
    CompactFrame.compact skip kept locals =
      kept.reverse ++ (scanFrom slot skip locals).map (·.1) := by
  induction locals generalizing slot skip kept with
  | nil => cases skip <;> simp [CompactFrame.compact, scanFrom]
  | cons t locals ih =>
    cases skip with
    | zero =>
      rw [CompactFrame.compact, ih (slot + 1), List.reverse_cons, List.append_assoc]
      rfl
    | succ skip => exact ih _ _ _

/-- What is skipped is not live. -/
theorem scanFrom_live {locals : List SlotType} (h : HalvesMatch locals) (slot : Nat) :
    (scanFrom slot 0 locals).filter live = (locals.zipIdx slot).filter live := by
  induction locals generalizing slot with
  | nil => rfl
  | cons t locals ih =>
    have hlater : (scanFrom (slot + 1) (t.width - 1) locals).filter live =
        (scanFrom (slot + 1) 0 locals).filter live :=
      h.skip (fun skip locals => (scanFrom (slot + 1) skip locals).filter live) fun _ => rfl
    rw [scanFrom, List.zipIdx_cons, List.filter_cons, List.filter_cons, hlater, ih h.tail]

/-- **Scans.** Both scans come to the same locals, and these are the live ones, each once and in
order, with nothing else but unusable slots among them. -/
structure Scanned (f : Frame) : Prop where
  /-- saved variables are those of the scan -/
  saved : savedLocalsFrom 0 0 f.locals =
    (scan f.locals).filterMap fun (t, slot) => savedLocal? t slot
  /-- and so are those in the table -/
  compact : CompactFrame.compact 0 [] f.locals = (scan f.locals).map (·.1)
  /-- nothing that is live is passed over -/
  live : (scan f.locals).filter live = f.locals.zipIdx.filter live

/-- If words of wide values are together, everything is read off one scan. -/
theorem HalvesMatch.scanned {f : Frame} (h : HalvesMatch f.locals) : f.Scanned where
  saved := scanFrom_saved 0 0 f.locals
  compact := scanFrom_compact 0 0 [] f.locals
  live := scanFrom_live h 0

/-! ## What instructions do to the stack -/

variable {f f' : Frame} {context : MethodContext} {index : Nat} {i : Instruction}

/-- How many values make up so many words on top of a stack, zero to two. -/
def valuesFor (words : Nat) (stack : List SlotType) : Nat :=
  match words, stack with
  | 0, _ => 0
  | _ + 2, t :: _ => if t.width = 1 then 2 else 1
  | _, _ => 1

/-- How many values a rearrangement takes off the stack. -/
def rearranged (op : StackOp) (stack : List SlotType) : Nat :=
  match op.copy? with
  | some (count, under) =>
    valuesFor count stack + valuesFor under (stack.drop (valuesFor count stack))
  | none =>
    match op with
    | .pop => valuesFor 1 stack
    | .pop2 => valuesFor 2 stack
    | _ => 2

/-- How many values an instruction takes off the stack. -/
def taken (f : Frame) (i : Instruction) : Nat :=
  match i.fixedEffect? with
  | some (taken, _) => taken.length
  | none =>
    match i with
    | .store _ _ | .putStatic _ | .getField _ | .arrayLength | .checkCast _ | .instanceOf _
    | .monitorEnter | .monitorExit | .ifNull _ _ | .returnValue _ | .throw => 1
    | .arrayLoad _ | .putField _ | .ifRef _ _ => 2
    | .arrayStore _ => 3
    | .stack op => rearranged op f.stack
    | .invoke kind m => m.descriptor.parameters.length + if kind = .static then 0 else 1
    | .invokeDynamic site => site.descriptor.parameters.length
    | .newMultiArray _ dimensions => dimensions
    | _ => 0

theorem taken_stack (f : Frame) (op : StackOp) : f.taken (.stack op) = rearranged op f.stack := rfl

theorem taken_invoke (f : Frame) (kind : CallKind) (m : MethodRef) :
    f.taken (.invoke kind m) =
      m.descriptor.parameters.length + if kind = .static then 0 else 1 := rfl

/-- Does the instruction run a constructor? -/
def initializes : Instruction → Bool
  | .invoke .special m => m.name = .init
  | _ => false

/-- What an instruction does to the stack when it leads from one frame to another, change by change. It
takes values off and puts values on. In between a throw empties the stack, and a constructor makes it
anew, as it replaces a type everywhere. -/
def edits (f f' : Frame) (i : Instruction) : List (WordList.Edit SlotType) :=
  List.replicate (f.taken i) .pop ++
    if i = .throw then .clear :: f'.stack.reverse.map .push
    else if initializes i then [.collect f'.stack.reverse]
    else (f'.stack.reverse.drop (f.stack.length - f.taken i)).map .push

/-- So many values are taken off. -/
def Takes (n : Nat) (stack rest : List SlotType) : Prop :=
  ∃ taken, taken.length = n ∧ stack = taken ++ rest

namespace Takes

theorem zero (stack : List SlotType) : Takes 0 stack stack := ⟨[], rfl, rfl⟩

theorem trans {n n' : Nat} {stack rest rest' : List SlotType} (h : Takes n stack rest)
    (h' : Takes n' rest rest') : Takes (n + n') stack rest' := by
  obtain ⟨taken, rfl, rfl⟩ := h
  obtain ⟨more, rfl, rfl⟩ := h'
  exact ⟨taken ++ more, List.length_append, (List.append_assoc _ _ _).symm⟩

/-- A pop takes one operand. -/
theorem pop {stack rest : List SlotType} {t : SlotType} (h : Frame.pop stack = .ok (t, rest)) :
    Takes 1 stack rest := by
  cases stack with
  | nil => cases h
  | cons u stack =>
    cases h
    exact ⟨[t], rfl, rfl⟩

/-- A pop of a certain type takes one operand. -/
theorem popWhere {p : SlotType → Bool} {stack rest : List SlotType} {t : SlotType}
    (h : Frame.popWhere p stack = .ok (t, rest)) : Takes 1 stack rest :=
  ⟨[t], rfl, (popWhere_eq h).1⟩

/-- As many operands are taken as are wanted. -/
theorem popExactly {wanted stack rest : List SlotType} (h : Frame.popExactly wanted stack = .ok rest) :
    Takes wanted.length stack rest := ⟨wanted, rfl, popExactly_eq h⟩

/-- As many operands are taken as there are parameters. -/
theorem popFitting {parameters : List FieldType} {stack rest : List SlotType}
    (h : Frame.popFitting parameters stack = .ok rest) : Takes parameters.length stack rest := by
  obtain ⟨taken, rfl⟩ := popFitting_suffix h
  have hlength := popFitting_length h
  rw [List.length_append] at hlength
  exact ⟨taken, by omega, rfl⟩

/-- A pop of one word takes one operand. -/
theorem popNarrow {stack rest : List SlotType} {t : SlotType}
    (h : Frame.popNarrow stack = .ok (t, rest)) : Takes 1 stack rest :=
  ⟨[t], rfl, (popNarrow_eq h).1⟩

/-- A pop of an array takes one operand. -/
theorem popArray {stack rest : List SlotType} {array : Option RefType}
    (h : Frame.popArray stack = .ok (array, rest)) : Takes 1 stack rest := by
  rcases popArray_eq h with ⟨-, rfl⟩ | ⟨type, -, -, rfl⟩
  · exact ⟨[.null], rfl, rfl⟩
  · exact ⟨[.object type], rfl, rfl⟩

/-- As many operands are taken as make up the words. -/
theorem popWords {words : Nat} {stack rest values : List SlotType}
    (h : Frame.popWords words stack = .ok (values, rest)) :
    Takes (valuesFor words stack) stack rest := by
  refine ⟨values, ?_, popWords_eq h⟩
  match words, stack with
  | 0, _ =>
    cases h
    rfl
  | 1, stack =>
    obtain ⟨⟨t, stack'⟩, -, h⟩ := Except.bind_ok.mp h
    cases h
    cases stack <;> rfl
  | words + 2, [] => cases h
  | words + 2, t :: stack =>
    simp only [Frame.popWords, Frame.pop, bind, Except.bind] at h
    rw [valuesFor]
    split at h
    · rename_i hnarrow
      rw [if_pos hnarrow]
      split at h
      · cases h
      · cases h
        rfl
    · rename_i hwide
      rw [if_neg hwide]
      cases h
      rfl

/-- What is left is what stands below. -/
theorem drop_eq {n : Nat} {stack rest : List SlotType} (h : Takes n stack rest) :
    stack.drop n = rest := by
  obtain ⟨taken, rfl, rfl⟩ := h
  exact List.drop_left

end Takes

/-- The values that an instruction takes off, and others put on what is left. -/
def Exchanges (f f' : Frame) (i : Instruction) : Prop :=
  ∃ put rest, Takes (f.taken i) f.stack rest ∧ f'.stack = put ++ rest

/-- Operands that are rearranged are taken off and put back. -/
theorem rearrange_exchanges {op : StackOp} (h : f.rearrange op = .ok f') :
    f.Exchanges f' (.stack op) := by
  simp only [rearrange] at h
  split at h
  · rename_i count under hcopy
    obtain ⟨⟨copied, stack⟩, hcopied, h⟩ := Except.bind_ok.mp h
    obtain ⟨⟨between, rest⟩, hbetween, h⟩ := Except.bind_ok.mp h
    cases h
    have hfirst := Takes.popWords hcopied
    have htaken : f.taken (.stack op) = valuesFor count f.stack + valuesFor under stack := by
      rw [← hfirst.drop_eq]
      simp only [taken_stack, rearranged, hcopy]
    exact ⟨copied ++ between ++ copied, rest, htaken ▸ hfirst.trans (Takes.popWords hbetween), rfl⟩
  · rename_i hcopy
    cases op with
    | pop | pop2 =>
      obtain ⟨⟨values, stack⟩, hpop, h⟩ := Except.bind_ok.mp h
      cases h
      exact ⟨[], stack, Takes.popWords hpop, rfl⟩
    | swap =>
      obtain ⟨⟨t, stack⟩, ht, h⟩ := Except.bind_ok.mp h
      obtain ⟨⟨u, rest⟩, hu, h⟩ := Except.bind_ok.mp h
      cases h
      exact ⟨[u, t], rest, (Takes.popNarrow ht).trans (Takes.popNarrow hu), rfl⟩
    | _ => cases hcopy

/-- A call takes its arguments off and puts its result there, unless it is a constructor. -/
theorem invoke_exchanges {kind : CallKind} {m : MethodRef}
    (h : f.invoke context kind m = .ok f') (hinit : initializes (.invoke kind m) = false) :
    f.Exchanges f' (.invoke kind m) := by
  obtain ⟨stack, hpop, h⟩ := Except.bind_ok.mp h
  have harguments := Takes.popFitting hpop
  rw [List.length_reverse] at harguments
  split at h
  · rename_i hconstructor
    obtain ⟨rfl, hname⟩ : kind = .special ∧ m.name = .init := by
      simpa using hconstructor
    rw [initializes, decide_eq_false_iff_not] at hinit
    exact absurd hname hinit
  · split at h
    · rename_i hstatic
      cases h
      have htaken : f.taken (.invoke kind m) = m.descriptor.parameters.length := by
        rw [taken_invoke, if_pos hstatic, Nat.add_zero]
      exact ⟨_, stack, htaken ▸ harguments, rfl⟩
    · rename_i hstatic
      obtain ⟨⟨t, rest⟩, hreceiver, h⟩ := Except.bind_ok.mp h
      cases h
      have htaken : f.taken (.invoke kind m) = m.descriptor.parameters.length + 1 := by
        rw [taken_invoke, if_neg hstatic]
      exact ⟨_, rest, htaken ▸ harguments.trans (Takes.popWhere hreceiver), rfl⟩

/-- A constructor takes its arguments and its receiver. -/
theorem invoke_takes {kind : CallKind} {m : MethodRef}
    (h : f.invoke context kind m = .ok f') (hinit : initializes (.invoke kind m) = true) :
    ∃ rest, Takes (f.taken (.invoke kind m)) f.stack rest := by
  obtain ⟨stack, hpop, h⟩ := Except.bind_ok.mp h
  have harguments := Takes.popFitting hpop
  rw [List.length_reverse] at harguments
  cases kind with
  | special =>
    rw [initializes, decide_eq_true_eq] at hinit
    rw [if_pos (by rw [hinit]; rfl)] at h
    obtain ⟨⟨t, rest⟩, hreceiver, -⟩ := Except.bind_ok.mp h
    exact ⟨rest, harguments.trans (Takes.pop hreceiver)⟩
  | _ => cases hinit

/-- An element takes the place of the array and the index. -/
theorem arrayLoad_exchanges {element : ElementKind} (h : f.arrayLoad element = .ok f') :
    f.Exchanges f' (.arrayLoad element) := by
  obtain ⟨stack, hindex, h⟩ := Except.bind_ok.mp h
  obtain ⟨⟨array, rest⟩, harray, h⟩ := Except.bind_ok.mp h
  have htakes : Takes 2 f.stack rest := (Takes.popExactly hindex).trans (Takes.popArray harray)
  simp only at h
  split at h
  · cases h
    exact ⟨[_], rest, htakes, rfl⟩
  · cases h
    exact ⟨[_], rest, htakes, rfl⟩
  · split at h
    · cases h
      exact ⟨[_], rest, htakes, rfl⟩
    · cases h

/-- The value that is returned is taken off. -/
theorem returnValue_exchanges {kind : ValueKind} (h : f.returnValue context kind = .ok f') :
    f.Exchanges f' (.returnValue kind) := by
  obtain ⟨t, rest, hstack, rfl⟩ := returnValue_inv h
  exact ⟨[], rest, ⟨[t], rfl, hstack⟩, rfl⟩

/-- **What an instruction takes off, and what it leaves.** A constructor and a throw make a stack of
their own, all others put something on what they leave. -/
theorem step_exchanges (h : f.step context index i = .ok f') :
    (∃ rest, Takes (f.taken i) f.stack rest) ∧
    (i ≠ .throw → initializes i = false → f.Exchanges f' i) := by
  have hplain : f.Exchanges f' i → (∃ rest, Takes (f.taken i) f.stack rest) ∧
      (i ≠ .throw → initializes i = false → f.Exchanges f' i) := fun hexchanges => by
    obtain ⟨put, rest, htakes, hput⟩ := hexchanges
    exact ⟨⟨rest, htakes⟩, fun _ _ => ⟨put, rest, htakes, hput⟩⟩
  have hkept : f.taken i = 0 → f' = f → f.Exchanges f' i := fun htaken heq =>
    ⟨[], f.stack, htaken ▸ Takes.zero _, congrArg Frame.stack heq⟩
  cases hfixed : i.fixedEffect? with
  | some effect =>
    obtain ⟨values, put⟩ := effect
    simp only [step, hfixed] at h
    obtain ⟨stack, hpop, h⟩ := Except.bind_ok.mp h
    cases h
    have htaken : f.taken i = values.length := by simp only [taken, hfixed]
    exact hplain ⟨put, stack, htaken ▸ Takes.popExactly hpop, rfl⟩
  | none =>
    simp only [step, hfixed] at h
    split at h
    · -- the other instructions, in the order of their definition
      obtain ⟨t, -, h⟩ := Except.bind_ok.mp h
      split at h
      · cases h
        exact hplain ⟨[t], f.stack, Takes.zero _, rfl⟩
      · cases h
    · obtain ⟨⟨t, stack⟩, hpop, h⟩ := Except.bind_ok.mp h
      obtain ⟨locals, -, h⟩ := Except.bind_ok.mp h
      cases h
      exact hplain ⟨[], stack, Takes.popWhere hpop, rfl⟩
    · exact hplain (arrayLoad_exchanges h)
    · obtain ⟨⟨_, stack₁⟩, hvalue, h⟩ := Except.bind_ok.mp h
      obtain ⟨stack₂, hindex, h⟩ := Except.bind_ok.mp h
      obtain ⟨⟨_, stack₃⟩, harray, h⟩ := Except.bind_ok.mp h
      cases h
      exact hplain ⟨[], stack₃, ((Takes.popWhere hvalue).trans (Takes.popExactly hindex)).trans
        (Takes.popArray harray), rfl⟩
    · exact hplain (rearrange_exchanges h)
    · obtain ⟨t, -, h⟩ := Except.bind_ok.mp h
      split at h
      · cases h
        exact hplain (hkept rfl rfl)
      · cases h
    · obtain ⟨stack, hpop, h⟩ := Except.bind_ok.mp h
      cases h
      exact hplain ⟨[], stack, Takes.popFitting hpop, rfl⟩
    · obtain ⟨⟨_, stack⟩, hpop, h⟩ := Except.bind_ok.mp h
      cases h
      exact hplain ⟨[_], stack, Takes.popWhere hpop, rfl⟩
    · obtain ⟨stack₁, hvalue, h⟩ := Except.bind_ok.mp h
      obtain ⟨⟨_, stack₂⟩, hpop, h⟩ := Except.bind_ok.mp h
      cases h
      exact hplain ⟨[], stack₂, (Takes.popFitting hvalue).trans (Takes.popWhere hpop), rfl⟩
    · rename_i kind m
      by_cases hinit : initializes (.invoke kind m) = true
      · exact ⟨invoke_takes h hinit, fun _ hother => absurd hinit (Bool.eq_false_iff.mp hother)⟩
      · exact hplain (invoke_exchanges h (Bool.eq_false_iff.mpr hinit))
    · obtain ⟨stack, hpop, h⟩ := Except.bind_ok.mp h
      cases h
      have htakes := Takes.popFitting hpop
      rw [List.length_reverse] at htakes
      exact hplain ⟨_, stack, htakes, rfl⟩
    · cases h
      exact hplain ⟨[_], f.stack, Takes.zero _, rfl⟩
    · split at h
      · cases h
      · obtain ⟨stack, hpop, h⟩ := Except.bind_ok.mp h
        cases h
        have htakes := Takes.popExactly hpop
        rw [List.length_replicate] at htakes
        exact hplain ⟨[_], stack, htakes, rfl⟩
    · obtain ⟨⟨_, stack⟩, hpop, h⟩ := Except.bind_ok.mp h
      cases h
      exact hplain ⟨[_], stack, Takes.popArray hpop, rfl⟩
    · obtain ⟨⟨_, stack⟩, hpop, h⟩ := Except.bind_ok.mp h
      cases h
      exact hplain ⟨[_], stack, Takes.popWhere hpop, rfl⟩
    · obtain ⟨⟨_, stack⟩, hpop, h⟩ := Except.bind_ok.mp h
      cases h
      exact hplain ⟨[_], stack, Takes.popWhere hpop, rfl⟩
    · obtain ⟨⟨_, stack⟩, hpop, h⟩ := Except.bind_ok.mp h
      cases h
      exact hplain ⟨[], stack, Takes.popWhere hpop, rfl⟩
    · obtain ⟨⟨_, stack⟩, hpop, h⟩ := Except.bind_ok.mp h
      cases h
      exact hplain ⟨[], stack, Takes.popWhere hpop, rfl⟩
    · obtain ⟨⟨_, stack⟩, hpop, h⟩ := Except.bind_ok.mp h
      cases h
      exact hplain ⟨[], stack, Takes.popWhere hpop, rfl⟩
    · -- two references are compared
      obtain ⟨⟨t, stack₁⟩, hfirst, h⟩ := Except.bind_ok.mp h
      obtain ⟨⟨u, stack₂⟩, hsecond, h⟩ := Except.bind_ok.mp h
      split at h
      · cases h
        exact hplain ⟨[], stack₂, (Takes.pop hfirst).trans (Takes.pop hsecond), rfl⟩
      · cases h
    · exact hplain (returnValue_exchanges h)
    · split at h
      · cases h
        exact hplain (hkept rfl rfl)
      · cases h
    · obtain ⟨⟨t, stack⟩, hpop, h⟩ := Except.bind_ok.mp h
      cases h
      exact ⟨⟨stack, Takes.popWhere hpop⟩, fun hthrow => absurd rfl hthrow⟩
    · cases h

/-- **The changes of an instruction** make of one stack the other. -/
theorem step_edits (h : f.step context index i = .ok f') :
    (f.edits f' i).foldl WordList.Edit.onItems f.stack.reverse = f'.stack.reverse := by
  obtain ⟨⟨rest, values, hvalues, hstack⟩, hexchanges⟩ := step_exchanges h
  have hpops : (List.replicate (f.taken i) WordList.Edit.pop).foldl WordList.Edit.onItems
      f.stack.reverse = rest.reverse := by
    rw [hstack, List.reverse_append, ← hvalues, ← List.length_reverse, WordList.Edit.foldl_pop]
  rw [edits, List.foldl_append, hpops]
  split
  · rw [List.foldl_cons, WordList.Edit.onItems, WordList.Edit.foldl_push, List.nil_append]
  · split
    · rfl
    · rename_i hthrow hinit
      obtain ⟨put, rest', htakes, hput⟩ := hexchanges hthrow (Bool.eq_false_iff.mpr hinit)
      have hrest : rest' = rest := htakes.drop_eq.symm.trans (Takes.drop_eq ⟨values, hvalues, hstack⟩)
      have hbelow : f.stack.length - f.taken i = rest.reverse.length := by
        rw [hstack, List.length_append, hvalues, Nat.add_sub_cancel_left, List.length_reverse]
      rw [WordList.Edit.foldl_push, hput, hrest, List.reverse_append, hbelow, List.drop_left]

/-! ## The stack in words -/

/-- The sum of the widths. -/
theorem words_eq (f : Frame) : f.words = (f.stack.map SlotType.width).sum := by
  rw [words, List.sum, List.foldr_map]

/-- The values on the stack take as many words as the stack is said to. -/
theorem widths_stack (f : Frame) : WordList.widths f.stack.reverse = f.words := by
  have hwidth : ∀ t : SlotType, HasWidth.words t = t.width := by
    intro t
    cases t <;> rfl
  rw [words_eq, WordList.widths, List.map_reverse, List.sum_reverse,
    List.map_congr_left fun t _ => hwidth t]

/-- Every operand has two words at most. -/
theorem words_le (f : Frame) : f.words ≤ 2 * f.stack.length := by
  rw [words_eq, ← Nat.mul_comm, ← List.length_map SlotType.width]
  refine List.sum_le_card_nsmul _ 2 fun n hn => ?_
  obtain ⟨t, -, rfl⟩ := List.mem_map.mp hn
  rcases t.width_eq with heq | heq
  · exact heq ▸ Nat.le_succ 1
  · exact heq ▸ Nat.le_refl 2

/-- The sequence that the stack of a frame is kept in, with the count of its words: it is changed as
the frame is computed. Entry to a method and to a handler and merging make a new one. -/
inductive Stacked (h : Hierarchy) : Frame → WordList SlotType → Prop where
  /-- a method starts with no values -/
  | entry (owner : ClassName) (method : MemberName) (d : MethodDescriptor) (isStatic : Bool)
      (size : Nat) : Stacked h (.entry owner method d isStatic size) .empty
  /-- a handler starts with the exception -/
  | handler {f : Frame} {v : WordList SlotType} (before : Stacked h f v)
      (caught : Option ClassName) :
      Stacked h (f.handler caught) (WordList.empty.push (.ofClass (caught.getD .throwable)))
  /-- an instruction takes values off and puts values on -/
  | step {f f' : Frame} {v : WordList SlotType} {context : MethodContext} {index : Nat}
      {i : Instruction} (before : Stacked h f v) (ok : f.step context index i = .ok f') :
      Stacked h f' ((f.edits f' i).foldl WordList.Edit.apply v)
  /-- merged types are put on a new stack one after the other -/
  | merge {a b f : Frame} {v w : WordList SlotType} (left : Stacked h a v) (right : Stacked h b w)
      (ok : Frame.merge h a b = .ok f) : Stacked h f (.ofList f.stack.reverse)

/-- The changes of an instruction to any sequence that holds the stack. -/
theorem step_regular {v : WordList SlotType} (hregular : v.Regular)
    (hitems : v.toList = f.stack.reverse) (h : f.step context index i = .ok f') :
    ((f.edits f' i).foldl WordList.Edit.apply v).Regular ∧
      ((f.edits f' i).foldl WordList.Edit.apply v).toList = f'.stack.reverse := by
  obtain ⟨hregular', hitems'⟩ := WordList.Edit.regular_foldl (f.edits f' i) hregular
  rw [hitems, step_edits h] at hitems'
  exact ⟨hregular', hitems'⟩

/-- **The sequence holds the stack**, whatever was done to it. -/
theorem Stacked.regular {h : Hierarchy} {v : WordList SlotType} (hv : Stacked h f v) :
    v.Regular ∧ v.toList = f.stack.reverse := by
  induction hv with
  | entry => exact ⟨WordList.regular_empty, rfl⟩
  | handler => exact ⟨WordList.regular_empty.push _, rfl⟩
  | step _ hok ih => exact step_regular ih.1 ih.2 hok
  | merge => exact ⟨WordList.regular_ofList _, WordList.toList_ofList _⟩

/-- What is kept up of a frame with `size` local slots and of the sequence that its stack is kept in.
A stack in memory has fewer than `2 ^ 63` values, so its words have a machine word. -/
structure Kept (size : Nat) (f : Frame) (v : WordList SlotType) : Prop
    extends f.WellFormed size, f.Scanned where
  /-- the offsets and the count of words follow from the items -/
  regular : v.Regular
  /-- the items are the stack, bottom first -/
  items : v.toList = f.stack.reverse
  /-- the count of words is the sum of the widths -/
  words : f.stack.length < 2 ^ 63 → v.words = (f.stack.map SlotType.width).sum

/-- A frame that is well formed is kept by a list of words with its operands. -/
theorem WellFormed.kept {size : Nat} {v : WordList SlotType} (hf : f.WellFormed size)
    (hv : v.Regular ∧ v.toList = f.stack.reverse) : f.Kept size v where
  toWellFormed := hf
  toScanned := hf.halves.scanned
  regular := hv.1
  items := hv.2
  words hlength := by
    have hle := f.words_le
    rw [hv.1.words, hv.2, widths_stack, ← words_eq]
    exact WordList.machineWord_of_lt (by omega)

/-! ## What all frames have in common -/

/-- A property that instructions, handlers and merging keep up. -/
structure Upheld (h : Hierarchy) (P : Frame → Prop) : Prop where
  /-- an instruction that is accepted keeps it up -/
  step : ∀ {f f' : Frame} {context : MethodContext} {index : Nat} {i : Instruction},
    P f → f.step context index i = .ok f' → P f'
  /-- so does an exception -/
  handler : ∀ {f : Frame} (caught : Option ClassName), P f → P (f.handler caught)
  /-- so do two ways that come together -/
  merge : ∀ {a b f : Frame}, P a → P b → Frame.merge h a b = .ok f → P f

/-- Being well formed is upheld by all that the analysis does. -/
theorem upheld_wellFormed (h : Hierarchy) (size : Nat) : Upheld h (·.WellFormed size) where
  step := step_wellFormed
  handler caught hf := hf.handler caught
  merge := merge_wellFormed

/-- Having a list of words with the operands of the frame is upheld as well. -/
theorem upheld_stacked (h : Hierarchy) : Upheld h fun f => ∃ v, Stacked h f v where
  step hf hok := by
    obtain ⟨v, hv⟩ := hf
    exact ⟨_, hv.step hok⟩
  handler caught hf := by
    obtain ⟨v, hv⟩ := hf
    exact ⟨_, hv.handler caught⟩
  merge ha hb hok := by
    obtain ⟨v, hv⟩ := ha
    obtain ⟨w, hw⟩ := hb
    exact ⟨_, hv.merge hw hok⟩

end Frame

/-! ## The course of an analysis -/

namespace Flow

variable {flow : Flow} {start s s' : FlowState}

/-- The states that an analysis goes through: the next instruction is taken from the worklist, and the
frames that it sends are received one after the other. -/
inductive Passes (flow : Flow) (start : FlowState) : FlowState → Prop where
  /-- none -/
  | start : Passes flow start start
  /-- one frame that is received at its target -/
  | receive {s s' : FlowState} {index : Nat} {rest : List Nat} {before after : Frame}
      {i : Instruction} {sent later : List (Nat × Frame)} (passes : Passes flow start s)
      (next : s.worklist = index :: rest) (frame : s.frameAt index = some before)
      (instruction : flow.instructions[index]? = some i)
      (effect : flow.afterFrame index before i = .ok after)
      (edges : flow.edges index before after i = .ok (sent ++ later))
      (received : sent.foldlM flow.receive
        (flow.visited { s with worklist := rest } index before after) = .ok s') :
      Passes flow start s'

/-- A visit that succeeds receives everything that is sent. -/
theorem Passes.visit {index : Nat} {rest : List Nat} (hs : flow.Passes start s)
    (hnext : s.worklist = index :: rest)
    (hvisit : flow.visit { s with worklist := rest } index = .ok s') : flow.Passes start s' := by
  obtain ⟨before, i, after, sent, hbefore, hi, hafter, hsent, hreceived⟩ := visit_cases hvisit
  rw [← List.append_nil sent] at hsent
  exact .receive hs hnext hbefore hi hafter hsent hreceived

/-- An analysis that succeeds ends in a state that it goes through. -/
theorem passes_settle {fuel : Nat} (h : flow.settle fuel start = .ok s') :
    flow.Passes start s' :=
  (settle_induction (fun _ _ _ _ hnext hs hvisit => hs.visit hnext hvisit) h .start).1

/-- Every frame that the state holds has the property. -/
def All (P : Frame → Prop) (s : FlowState) : Prop := ∀ index f, s.frameAt index = some f → P f

variable {P : Frame → Prop}

/-- What an instruction makes of its frame, and what it sends. -/
theorem sent_upheld (hP : Frame.Upheld flow.hierarchy P) {index : Nat} {before after : Frame}
    {i : Instruction} (hbefore : P before) (hafter : flow.afterFrame index before i = .ok after) :
    P after ∧ ∀ sent, flow.edges index before after i = .ok sent → ∀ edge ∈ sent, P edge.2 := by
  have hthen : P after := hP.step hbefore (afterFrame_step hafter)
  refine ⟨hthen, fun sent hsent edge hedge => ?_⟩
  rcases edges_cases hsent edge hedge with heq | ⟨handler, -, hok⟩
  · exact heq ▸ hthen
  · exact hP.merge (hP.handler _ hbefore) (hP.handler _ hthen) hok

/-- **The step.** A frame that is received is put in place, or merged into the one there. -/
theorem receive_upheld (hP : Frame.Upheld flow.hierarchy P) {edge : Nat × Frame} (hs : All P s)
    (hedge : P edge.2) (h : flow.receive s edge = .ok s') : All P s' := by
  obtain ⟨target, incoming⟩ := edge
  rcases receive_cases h with ⟨rfl, -⟩ | ⟨-, rfl⟩ | ⟨existing, merged, hexisting, hmerged, -, rfl⟩
  · exact hs
  · intro index f hf
    rcases FlowState.frameAt_enqueue hf with ⟨-, rfl⟩ | hf
    · exact hedge
    · exact hs index f hf
  · intro index f hf
    rcases FlowState.frameAt_enqueue hf with ⟨-, rfl⟩ | hf
    · exact hP.merge (hs target existing hexisting) hedge hmerged
    · exact hs index f hf

/-- **The run.** -/
theorem Passes.upheld (hP : Frame.Upheld flow.hierarchy P) (hstart : All P start)
    (h : flow.Passes start s) : All P s := by
  induction h with
  | start => exact hstart
  | @receive s s' index rest before after i sent later _ _ hframe _ heffect hedges hreceived hs =>
    obtain ⟨-, hsent⟩ := sent_upheld hP (hs index before hframe) heffect
    refine foldlM_receive (P := All P) ?_ hreceived hs
    exact fun _ _ edge hin hs hok =>
      receive_upheld hP hs (hsent _ hedges edge (List.mem_append_left _ hin)) hok

end Flow

/-- The local slots that an analysis takes a body to have. -/
def Code.localSlots (c : Code) (d : MethodDescriptor) (isStatic : Bool) : Nat :=
  c.instructions.foldl (fun n i => max n i.localExtent)
    (max c.maxLocals (d.parameterWords !isStatic))

/-- There is room for the arguments. -/
theorem Code.arguments_le (c : Code) (owner : ClassName) (name : MemberName) (d : MethodDescriptor)
    (isStatic : Bool) :
    (Frame.arguments owner name d isStatic).length ≤ c.localSlots d isStatic := by
  rw [Frame.arguments_length, localSlots, ← Array.foldl_toList]
  exact Nat.le_trans (Nat.le_max_right _ _) (le_foldl_max _ _ _)

/-- **Upkeep.** A method starts with a well-formed frame, and instructions, handlers and merging keep
frames well-formed, together with the sequence in which the stack is kept and its count of words. So
they are at every moment of an analysis, and both scans come to each of their live locals once. An
analysis that succeeds gives the frames of such a moment. -/
theorem analysis_keepsFrames (h : Hierarchy) (owner : ClassName) (name : MemberName)
    (d : MethodDescriptor) (isStatic : Bool) (c : Code) (positions : LabelPositions)
    (ranges : List HandlerRange) :
    (Frame.entry owner name d isStatic (c.localSlots d isStatic)).Kept (c.localSlots d isStatic)
      .empty ∧
    (∀ (size index : Nat) (context : MethodContext) (i : Instruction) (f f' : Frame) v,
      f.Kept size v → f.step context index i = .ok f' →
        f'.Kept size ((f.edits f' i).foldl WordList.Edit.apply v)) ∧
    (∀ (size : Nat) (caught : Option ClassName) (f : Frame) v, f.Kept size v →
      (f.handler caught).Kept size (WordList.empty.push (.ofClass (caught.getD .throwable)))) ∧
    (∀ (size : Nat) (a b f : Frame) v w, a.Kept size v → b.Kept size w →
      Frame.merge h a b = .ok f → f.Kept size (.ofList f.stack.reverse)) ∧
    (∀ s, (Flow.ofCode h owner d c positions ranges).Passes
        (.start c (.entry owner name d isStatic (c.localSlots d isStatic))) s →
      ∀ index f, s.frameAt index = some f →
        (∃ v, Frame.Stacked h f v) ∧ ∀ v, Frame.Stacked h f v → f.Kept (c.localSlots d isStatic) v ∧
        ∀ i after, (Flow.ofCode h owner d c positions ranges).afterFrame index f i = .ok after →
          after.Kept (c.localSlots d isStatic) ((f.edits after i).foldl WordList.Edit.apply v) ∧
          ∀ sent, (Flow.ofCode h owner d c positions ranges).edges index f after i = .ok sent →
            ∀ edge ∈ sent, ∃ w, Frame.Stacked h edge.2 w ∧
              edge.2.Kept (c.localSlots d isStatic) w) ∧
    ∀ a, c.labelPositions = .ok positions → c.handlerRanges = .ok ranges →
      analyzeCode h owner name d isStatic c = .ok a → a.maxLocals = c.localSlots d isStatic ∧
        ∃ s, (Flow.ofCode h owner d c positions ranges).Passes
          (.start c (.entry owner name d isStatic (c.localSlots d isStatic))) s ∧
          ∀ index, a.frames.getD index none = s.frameAt index := by
  have hentry := Frame.entry_wellFormed (c.arguments_le owner name d isStatic)
  refine ⟨hentry.kept ⟨WordList.regular_empty, rfl⟩, fun size index context i f f' v hf hstep =>
    (Frame.step_wellFormed hf.toWellFormed hstep).kept
      (Frame.step_regular hf.regular hf.items hstep),
    fun size caught f v hf => (hf.handler caught).kept ⟨WordList.regular_empty.push _, rfl⟩,
    fun size a b f v w ha hb hok => (Frame.merge_wellFormed ha.toWellFormed hb.toWellFormed hok).kept
      ⟨WordList.regular_ofList _, WordList.toList_ofList _⟩, ?_, ?_⟩
  · -- both are properties that frames of the analysis keep once they have them, and the first frame
    -- has them
    intro s hs index f hf
    have hwellFormed := Frame.upheld_wellFormed h (c.localSlots d isStatic)
    have hstacked := Frame.upheld_stacked h
    have hwell : f.WellFormed (c.localSlots d isStatic) := by
      refine hs.upheld hwellFormed (fun k g hg => ?_) index f hf
      obtain ⟨-, rfl⟩ := FlowState.frameAt_start hg
      exact hentry
    have hkeeps : ∃ v, Frame.Stacked h f v := by
      refine hs.upheld hstacked (fun k g hg => ?_) index f hf
      obtain ⟨-, rfl⟩ := FlowState.frameAt_start hg
      exact ⟨_, .entry owner name d isStatic _⟩
    refine ⟨hkeeps, fun v hv => ⟨hwell.kept hv.regular, fun i after hafter => ?_⟩⟩
    obtain ⟨hthen, hsent⟩ := Flow.sent_upheld hwellFormed hwell hafter
    have hnext := hv.step (Flow.afterFrame_step hafter)
    refine ⟨hthen.kept hnext.regular, fun sent hedges edge hedge => ?_⟩
    obtain ⟨w, hw⟩ := (Flow.sent_upheld hstacked hkeeps hafter).2 sent hedges edge hedge
    exact ⟨w, hw, (hsent sent hedges edge hedge).kept hw.regular⟩
  · intro a hpositions hranges hok
    obtain ⟨analyzed⟩ := analyzeCode_analyzed hok
    cases hpositions.symm.trans analyzed.positions_eq
    cases hranges.symm.trans analyzed.ranges_eq
    have hpasses := Flow.passes_settle analyzed.settle_eq
    rw [analyzed.locals_eq] at hpasses
    exact ⟨analyzed.locals_eq, analyzed.settled, hpasses, fun index => by
      rw [analyzed.frames_eq]
      rfl⟩

/-! ## An overlap -/

namespace Overlap

/-- The class of the sample. -/
def owner : ClassName := ⟨"Overlap", by decide⟩

/-- Takes a number that is two words wide. -/
def descriptor : MethodDescriptor := ⟨[.base .long], none⟩

/-- The argument is moved up by one slot, and then a loop overwrites its second half. -/
def code : Code := .ofInstructions
  [.load .long 0, .store .long 1, .label ⟨0⟩, .pushInt 0, .store .int 2, .goto ⟨0⟩] []

/-- What is known before the sample is analyzed. -/
def flow : Flow := .ofCode ⟨[]⟩ owner descriptor code [(⟨0⟩, 2)] []

/-- Where the analysis begins. -/
def start : FlowState := .start code (.entry owner .run descriptor true 3)

/-- The first time round, the moved value is still there when the loop is entered. -/
theorem passes_entered : ∃ s, flow.Passes start s ∧
    s.frameAt 1 = some ⟨[.long, .top, .top], [.long]⟩ ∧
    s.frameAt 2 = some ⟨[.top, .long, .top], []⟩ := by
  have hstart : flow.Passes start start := .start
  have hload := hstart.visit rfl rfl
  have hstore := hload.visit rfl rfl
  exact ⟨_, hstore, rfl, rfl⟩

end Overlap

/-- A value that was moved to overlap its old place is one live local, in one piece, and takes two
words on the stack while it is moved. -/
theorem analysis_keepsFrames_overlap : ∃ s, Overlap.flow.Passes Overlap.start s ∧
    s.frameAt 1 = some ⟨[.long, .top, .top], [.long]⟩ ∧
    s.frameAt 2 = some ⟨[.top, .long, .top], []⟩ ∧
    (∃ v, Frame.Stacked ⟨[]⟩ ⟨[.long, .top, .top], [.long]⟩ v ∧ v.words = 2) ∧
    ∃ v, (⟨[.top, .long, .top], []⟩ : Frame).Kept 3 v := by
  obtain ⟨s, hs, hload, hframe⟩ := Overlap.passes_entered
  obtain ⟨-, -, -, -, hall, -⟩ := analysis_keepsFrames ⟨[]⟩ Overlap.owner .run Overlap.descriptor true
    Overlap.code [(⟨0⟩, 2)] []
  obtain ⟨⟨v, hv⟩, hmoved⟩ := hall s hs 1 _ hload
  obtain ⟨⟨w, hw⟩, hkept⟩ := hall s hs 2 _ hframe
  exact ⟨s, hs, hload, hframe, ⟨v, hv, (hmoved v hv).1.words (by decide)⟩, w, (hkept w hw).1⟩

end Resumption
