import Resumption.Proofs.Loops.Rounds
import Resumption.Proofs.Subroutine.Copies

/-!
# Inlining ends

Inlining counts fuel twice: to visit a body, and to put copies into copies. Here is what it does
without fuel. What has an end does not need any.

* **`visit_ends`**: a body is found in rounds, each of which visits another instruction.
* **`Inlines`** says what comes of a call or of instructions one after the other. It is inductive, so
  nothing comes of a copy that would have to be put inside itself for ever.
* **`inlineCall_inlines`**: something comes of every call, and inlining gives it. The labels of the
  copies around a call are all different and all placed, so there are not more of them than labels.
* **`inlineCall_acyclic`**: if a call has a copy, it leads to no subroutine that calls itself, at once
  or by others.
* **`ends_inline`**: what is said of calls holds of the whole code.
-/

namespace Resumption.Subroutine

/-! ## Visiting a body -/

namespace Source

variable {s : Source}

/-- Visits one more instruction. There are places to visit and those that were visited. -/
def visit (s : Source) : Round (List Nat × List Nat) CodeError (List Nat) := fun x =>
  match x.1.dropWhile x.2.contains with
  | [] => .ok (.inl x.2)
  | index :: rest =>
    match s.code.instructions[index]? with
    | none => .error (.unanalyzable .subroutineFallsOff)
    | some i => do
      let next ← s.successors index i
      return .inr (next ++ rest, index :: x.2)

/-- What visiting gives from a state on. -/
def reachFrom (s : Source) (fuel : Nat) (x : List Nat × List Nat) : Except CodeError (List Nat) :=
  s.reach fuel x.1 x.2

theorem reachFrom_succ (fuel : Nat) (x : List Nat × List Nat) :
    s.reachFrom (fuel + 1) x = s.visit x >>= Sum.elim .ok (s.reachFrom fuel) := by
  rw [reachFrom, reach, visit]
  cases x.1.dropWhile x.2.contains with
  | nil => rfl
  | cons index rest =>
    simp only
    cases s.code.instructions[index]? with
    | none => rfl
    | some i =>
      simp only
      cases s.successors index i with
      | error e => rfl
      | ok next => rfl

/-- An instruction is visited once only. -/
theorem visit_next {x y : List Nat × List Nat} (h : s.visit x = .ok (.inr y)) :
    ∃ index, y.2 = index :: x.2 ∧ index ∉ x.2 ∧ index < s.code.instructions.size := by
  rw [visit] at h
  split at h
  · cases h
  · rename_i index rest hsome
    split at h
    · cases h
    · rename_i i hi
      obtain ⟨next, -, h⟩ := Except.bind_ok.mp h
      cases h
      have hnew := List.head?_dropWhile_not x.2.contains x.1
      rw [hsome] at hnew
      exact ⟨index, rfl, by simpa using hnew, (Array.getElem?_eq_some_iff.mp hi).1⟩

/-- **Bodies end.** There are as many rounds as instructions at most, and one more. -/
theorem visit_ends (s : Source) (start : Nat) : ∃ n, n ≤ s.code.instructions.size + 1 ∧
    s.visit.Ends ([start], []) n (s.reach (s.code.instructions.size + 2) [start] []) := by
  have hnext : ∀ x y : List Nat × List Nat,
      (x.2.Nodup ∧ ∀ index ∈ x.2, index < s.code.instructions.size) → s.visit x = .ok (.inr y) →
      (y.2.Nodup ∧ ∀ index ∈ y.2, index < s.code.instructions.size) ∧
        s.code.instructions.size - y.2.length < s.code.instructions.size - x.2.length := by
    rintro x y ⟨hnodup, hvisited⟩ h
    obtain ⟨index, hy, hnew, hlt⟩ := visit_next h
    rw [hy]
    have hnodup' := List.nodup_cons.mpr ⟨hnew, hnodup⟩
    have hvisited' : ∀ j ∈ index :: x.2, j < s.code.instructions.size :=
      List.forall_mem_cons.mpr ⟨hlt, hvisited⟩
    have hle := length_visited hnodup' hvisited'
    rw [List.length_cons] at hle ⊢
    exact ⟨⟨hnodup', hvisited'⟩, by omega⟩
  obtain ⟨n, r, hn, hends⟩ := Round.exists_ends s.visit
    (fun x => s.code.instructions.size - x.2.length) hnext (s := ([start], []))
    ⟨List.nodup_nil, List.forall_mem_nil _⟩
  have hn : n ≤ s.code.instructions.size + 1 := hn
  have hreach : s.reachFrom (s.code.instructions.size + 2) ([start], []) = r :=
    hends.fueled reachFrom_succ (Nat.le_succ_of_le hn)
  rw [reachFrom] at hreach
  exact ⟨n, hn, hreach ▸ hends⟩

end Source

/-! ## Inlining without fuel -/

/-- What there is to do: a call, or instructions of a copy or of the whole code. The labels in
`active` are those of the copies around. -/
inductive Job where
  /-- a call is to be inlined -/
  | call (index : Nat) (target : Label) (active : List Label) (o : Output)
  /-- an instruction is to be written -/
  | line (header : Option Header) (active : List Label) (index : Nat) (o : Output)
  /-- instructions are to be written -/
  | lines (header : Option Header) (active : List Label) (indexes : List Nat) (o : Output)

namespace Source

/-- Writes an instruction that is no `jsr`. In a copy a `ret` has to be on the local of the
subroutine. -/
def writeLine (header : Option Header) (o : Output) (index : Nat) (i : Instruction) :
    Except CodeError Output :=
  match header, i with
  | none, i => .ok (o.emit i (some index) none)
  | some header, .ret found =>
    if found = header.slot then .ok (o.emit (.goto header.done) (some index) (some header.copy))
    else .error (.unanalyzable (.otherReturnAddress header.target found header.slot))
  | some header, i =>
    .ok (o.emit (i.mapLabels (renamed header.names)) (some index) (some header.copy))

end Source

/-- This is what comes of it. -/
inductive Inlines (s : Source) : Job → Except CodeError Output → Prop
  /-- a subroutine that is being copied is called again -/
  | recursive {index : Nat} {target : Label} {active : List Label} {o : Output}
    (h : target ∈ active) : Inlines s (.call index target active o)
      (.error (.unanalyzable (.recursiveSubroutine target)))
  /-- a subroutine that cannot be copied -/
  | refused {index : Nat} {target : Label} {active : List Label} {o : Output} {e : CodeError}
    (h : target ∉ active) (hbody : s.slotAndBody target = .error e) :
    Inlines s (.call index target active o) (.error e)
  /-- a subroutine is copied -/
  | copied {index slot : Nat} {target : Label} {active : List Label} {o : Output} {body : List Nat}
    {header : Header} {r : Except CodeError Output} (h : target ∉ active)
    (hbody : s.slotAndBody target = .ok (slot, body)) (hheader : s.header o target slot body = header)
    (hlines : Inlines s
      (.lines (some header) (target :: active) body (Source.opened o index header)) r) :
    Inlines s (.call index target active o)
      (r >>= fun o => .ok (o.emit (.label header.done) none none))
  /-- a call -/
  | jsr {header : Option Header} {active : List Label} {index : Nat} {target : Label} {o : Output}
    {r : Except CodeError Output} (hi : s.code.instructions[index]? = some (.jsr target))
    (hcall : Inlines s (.call index target active o) r) :
    Inlines s (.line header active index o) r
  /-- any other instruction -/
  | plain {header : Option Header} {active : List Label} {index : Nat} {i : Instruction}
    {o : Output} (hi : s.code.instructions[index]? = some i) (hjsr : ∀ l, i ≠ .jsr l) :
    Inlines s (.line header active index o) (Source.writeLine header o index i)
  /-- nothing is left -/
  | nil {header : Option Header} {active : List Label} {o : Output} :
    Inlines s (.lines header active [] o) (.ok o)
  /-- one instruction, and then the rest -/
  | cons {header : Option Header} {active : List Label} {index : Nat} {rest : List Nat}
    {o o' : Output} {r : Except CodeError Output}
    (hline : Inlines s (.line header active index o) (.ok o'))
    (hrest : Inlines s (.lines header active rest o') r) :
    Inlines s (.lines header active (index :: rest) o) r
  /-- an instruction cannot be written -/
  | fails {header : Option Header} {active : List Label} {index : Nat} {rest : List Nat}
    {o : Output} {e : CodeError} (hline : Inlines s (.line header active index o) (.error e)) :
    Inlines s (.lines header active (index :: rest) o) (.error e)

/-- **One outcome at most.** -/
theorem Inlines.unique {s : Source} {job : Job} {r q : Except CodeError Output}
    (hr : Inlines s job r) (hq : Inlines s job q) : r = q := by
  -- at each job one rule applies: which one depends on the code and on the active labels only
  induction hr generalizing q with
  | recursive h =>
    cases hq with
    | recursive => rfl
    | refused h' => exact absurd h h'
    | copied h' => exact absurd h h'
  | refused h hbody' =>
    cases hq with
    | recursive h' => exact absurd h' h
    | refused _ hbody'' => cases hbody'.symm.trans hbody''; rfl
    | copied _ hbody'' => cases hbody'.symm.trans hbody''
  | copied h hbody' hheader _ ih =>
    cases hq with
    | recursive h' => exact absurd h' h
    | refused _ hbody'' => cases hbody'.symm.trans hbody''
    | copied _ hbody'' hheader' hlines' =>
      cases hbody'.symm.trans hbody''
      cases hheader.symm.trans hheader'
      rw [ih hlines']
  | jsr hi _ ih =>
    cases hq with
    | jsr hi' hcall' =>
      cases hi.symm.trans hi'
      exact ih hcall'
    | plain hi' hjsr =>
      cases hi.symm.trans hi'
      exact absurd rfl (hjsr _)
  | plain hi hjsr =>
    cases hq with
    | jsr hi' hcall' =>
      cases hi.symm.trans hi'
      exact absurd rfl (hjsr _)
    | plain hi' _ =>
      cases hi.symm.trans hi'
      rfl
  | nil =>
    cases hq
    rfl
  | cons _ _ ihline ihrest =>
    cases hq with
    | cons hline' hrest' =>
      cases ihline hline'
      exact ihrest hrest'
    | fails hline' => cases ihline hline'
  | fails _ ih =>
    cases hq with
    | cons hline' _ => cases ih hline'
    | fails hline' => exact ih hline'

/-! ## Fuel is enough -/

namespace Source

variable {s : Source} {header : Option Header} {active : List Label}

/-- Lines are written one after the other. -/
theorem foldlM_inlines {α : Type} {step : Output → α → Except CodeError Output} {index : α → Nat}
    {xs : List α} {indexes : List Nat} (hindexes : xs.map index = indexes)
    (hstep : ∀ x ∈ xs, ∀ o, Inlines s (.line header active (index x) o) (step o x)) (o : Output) :
    Inlines s (.lines header active indexes o) (xs.foldlM step o) := by
  subst hindexes
  induction xs generalizing o with
  | nil => exact .nil
  | cons x xs ih =>
    have hx := hstep x (List.mem_cons_self ..) o
    rw [List.foldlM_cons, List.map_cons]
    cases hline : step o x with
    | error e => exact .fails (hline ▸ hx)
    | ok o' => exact .cons (hline ▸ hx) (ih (fun y hy => hstep y (List.mem_cons_of_mem _ hy)) o')

theorem copyStep_inlines {fuel index : Nat} {header : Header} {i : Instruction}
    (hi : s.code.instructions[index]? = some i)
    (hcall : ∀ l o, Inlines s (.call index l (header.target :: active) o)
      (s.inlineCall fuel index l (header.target :: active) o)) (o : Output) :
    Inlines s (.line (some header) (header.target :: active) index o)
      (s.copyStep fuel active header o index) := by
  have hplain : (∀ l, i ≠ .jsr l) →
      s.copyStep fuel active header o index = writeLine (some header) o index i := by
    intro hjsr
    rw [copyStep, hi]
    cases i with
    | jsr l => exact absurd rfl (hjsr l)
    | _ => rfl
  by_cases hjsr : ∃ l, i = .jsr l
  · obtain ⟨l, rfl⟩ := hjsr
    rw [copyStep, hi]
    exact .jsr hi (hcall l o)
  · rw [hplain fun l hl => hjsr ⟨l, hl⟩]
    exact .plain hi fun l hl => hjsr ⟨l, hl⟩

/-- Labels that are placed are not more than there are positions. -/
theorem length_active (hnodup : active.Nodup)
    (hplaced : ∀ l ∈ active, ∃ j, s.positions.find l = .ok j) :
    active.length ≤ s.positions.length := by
  have hsub : active ⊆ s.positions.map (·.1) := by
    intro l hl
    obtain ⟨j, hj⟩ := hplaced l hl
    rw [LabelPositions.find] at hj
    split at hj
    · rename_i position hlookup
      obtain ⟨before, after, hpositions, -⟩ := List.lookup_eq_some_iff.mp hlookup
      rw [hpositions]
      simp
    · cases hj
  simpa using (List.subperm_of_subset hnodup hsub).length_le

/-- **Calls end.** There are not more copies around a call than labels, so fuel for every label is
enough. -/
theorem inlineCall_inlines {fuel call : Nat} {target : Label} {active : List Label}
    (hnodup : active.Nodup) (hplaced : ∀ l ∈ active, ∃ j, s.positions.find l = .ok j)
    (hfuel : s.positions.length < fuel + active.length) (o : Output) :
    Inlines s (.call call target active o) (s.inlineCall fuel call target active o) := by
  -- Active labels are distinct and placed, so calls nest at most as deep as there are labels, and
  -- the fuel never runs out.
  induction fuel generalizing call target active o with
  | zero =>
    have := length_active hnodup hplaced
    omega
  | succ fuel ih =>
    rw [inlineCall_succ]
    by_cases hactive : target ∈ active
    · rw [if_pos (by simpa using hactive)]
      exact .recursive hactive
    rw [if_neg (by simpa using hactive)]
    cases hbody' : s.slotAndBody target with
    | error e => exact .refused hactive hbody'
    | ok entry =>
      obtain ⟨slot, body⟩ := entry
      obtain ⟨start, hstart, -, hbody⟩ := slotAndBody_ok hbody'
      have hnodup := List.nodup_cons.mpr ⟨hactive, hnodup⟩
      have hplaced := List.forall_mem_cons.mpr ⟨⟨start, hstart⟩, hplaced⟩
      have hfuel : s.positions.length < fuel + (target :: active).length := by
        rw [List.length_cons]
        omega
      refine .copied hactive hbody' rfl
        (foldlM_inlines (List.map_id body) (fun index hindex o => ?_) _)
      obtain ⟨i, hi⟩ := (body_isBody hbody).2.instructions index hindex
      exact copyStep_inlines hi (fun l o => ih hnodup hplaced hfuel o) o

/-- The whole code ends, with every `jsr` in it. -/
theorem writes_inlines (s : Source) :
    Inlines s (.lines none [] (List.range s.code.instructions.size) s.blank)
      (s.code.instructions.toList.zipIdx.foldlM s.writeStep s.blank) := by
  have hindexes : s.code.instructions.toList.zipIdx.map (·.2) =
      List.range s.code.instructions.size := by
    rw [List.zipIdx_map_snd, List.range_eq_range', Array.length_toList]
  refine foldlM_inlines hindexes ?_ _
  rintro ⟨i, index⟩ hx o
  have hi : s.code.instructions[index]? = some i := by
    simpa using List.mem_zipIdx_iff_getElem?.mp hx
  by_cases hjsr : ∃ l, i = .jsr l
  · obtain ⟨l, rfl⟩ := hjsr
    have hfuel : s.positions.length < s.positions.length + 1 + ([] : List Label).length := by simp
    exact .jsr hi (inlineCall_inlines List.nodup_nil (List.forall_mem_nil _) hfuel o)
  · have hplain : s.writeStep o (i, index) = writeLine none o index i := by
      cases i with
      | jsr l => exact absurd ⟨l, rfl⟩ hjsr
      | _ => rfl
    rw [hplain]
    exact .plain hi fun l hl => hjsr ⟨l, hl⟩

/-! ## Subroutines that call themselves -/

/-- The subroutine at the first label calls the one at the second. -/
def Calls (s : Source) (l l' : Label) : Prop :=
  ∃ start body index, s.positions.find l = .ok start ∧ s.body start = .ok body ∧ index ∈ body ∧
    s.code.instructions[index]? = some (.jsr l')

/-- **No calls in circles.** If a call has a copy, no subroutine that it leads to is one of those
around it, and none of them leads to itself. -/
theorem inlineCall_acyclic {fuel call : Nat} {target : Label} {active : List Label} {o o' : Output}
    (h : s.inlineCall fuel call target active o = .ok o') {l : Label}
    (hl : Relation.ReflTransGen s.Calls target l) :
    l ∉ active ∧ ¬ Relation.TransGen s.Calls l l := by
  induction fuel generalizing call target active o o' l with
  | zero => cases h
  | succ fuel ih =>
    obtain ⟨start, slot, body, o₁, hstart, -, hbody, hfold, -⟩ := inlineCall_inv h
    rw [inlineCall_succ] at h
    split at h
    · cases h
    rename_i hactive
    -- a call in the body was inlined with the subroutine around it
    have hinner : ∀ m, s.Calls target m → ∃ index o o',
        s.inlineCall fuel index m (target :: active) o = .ok o' := by
      rintro m ⟨start', body', index, hstart', hbody', hindex, hm⟩
      cases hstart.symm.trans hstart'
      cases hbody.symm.trans hbody'
      obtain ⟨o, o', hstep⟩ := step_of_foldlM hfold hindex
      rw [copyStep, hm] at hstep
      exact ⟨index, o, o', hstep⟩
    rcases hl.cases_head with rfl | ⟨m, hm, hl⟩
    · refine ⟨by simpa using hactive, fun hcircle => ?_⟩
      obtain ⟨m, hm, hback⟩ := Relation.TransGen.head'_iff.mp hcircle
      obtain ⟨index, o, o', hcall⟩ := hinner m hm
      exact (ih hcall hback).1 (List.mem_cons_self ..)
    · obtain ⟨index, o, o', hcall⟩ := hinner m hm
      obtain ⟨hout, hcircle⟩ := ih hcall hl
      exact ⟨fun hmem => hout (List.mem_cons_of_mem _ hmem), hcircle⟩

/-- No subroutine that some `jsr` of the code leads to leads to itself. -/
theorem Writes.acyclic {f : Output} (h : s.Writes f) {index : Nat} {target l : Label}
    (hi : s.code.instructions[index]? = some (.jsr target))
    (hl : Relation.ReflTransGen s.Calls target l) : ¬ Relation.TransGen s.Calls l l := by
  have hmem : (.jsr target, index) ∈ s.code.instructions.toList.zipIdx :=
    List.mem_zipIdx_iff_getElem?.mpr (by simpa using hi)
  obtain ⟨o, o', hstep⟩ := step_of_foldlM h hmem
  exact (inlineCall_acyclic hstep hl).2

end Source

/-! ## The code that comes of it -/

/-- Repeats the handlers for the copies and puts their labels in between. -/
def finish (c : Code) (o : Output) : Except CodeError Code := do
  let ranges ← liftError CodeError.ofLabel c.handlerRanges
  let repeated := (c.handlers.zip ranges).foldl
    (fun r (handler, range) => repeatHandler o handler range r)
    { handlers := [], labels := [], nextLabel := o.nextLabel }
  let instructions := placeBefore repeated.labels (o.lines.map (·.instruction))
  return { Code.ofInstructions instructions repeated.handlers with maxLocals := c.maxLocals }

/-- What comes of a code, without fuel. -/
inductive Ends (c : Code) : Except CodeError Code → Prop
  /-- there is nothing to inline -/
  | plain (h : ∀ l, .jsr l ∉ c.instructions) : Ends c (.ok c)
  /-- labels are not placed once -/
  | duplicate {l : Label} {e : LabelError} (h : .jsr l ∈ c.instructions)
    (hpositions : c.labelPositions = .error e) : Ends c (.error (.ofLabel e))
  /-- everything is written and finished -/
  | inlined {l : Label} {positions : LabelPositions} {r : Except CodeError Output}
    (h : .jsr l ∈ c.instructions) (hpositions : c.labelPositions = .ok positions)
    (hlines : Inlines ⟨c, positions⟩
      (.lines none [] (List.range c.instructions.size) (Source.blank ⟨c, positions⟩)) r) :
    Ends c (r >>= finish c)

theorem has_jsr {c : Code} {p : Instruction → Bool} (hp : ∀ i, p i = true ↔ ∃ l, i = .jsr l) :
    c.has p = true ↔ ∃ l, .jsr l ∈ c.instructions := by
  rw [Code.has, Array.any_eq_true']
  constructor
  · rintro ⟨i, hi, hjsr⟩
    obtain ⟨l, rfl⟩ := (hp i).mp hjsr
    exact ⟨l, hi⟩
  · rintro ⟨l, hl⟩
    exact ⟨_, hl, (hp _).mpr ⟨l, rfl⟩⟩

/-- **Inlining ends.** -/
theorem ends_inline (c : Code) : Ends c (inline c) := by
  rw [inline]
  split
  · rename_i hnone
    rw [Bool.not_eq_eq_eq_not, Bool.not_true, ← Bool.not_eq_true, has_jsr] at hnone
    · exact .plain fun l hl => hnone ⟨l, hl⟩
    · intro i
      cases i <;> simp
  · rename_i hsome
    rw [Bool.not_eq_true', ← Bool.not_eq_true, not_not, has_jsr] at hsome
    · obtain ⟨l, hl⟩ := hsome
      cases hpositions : c.labelPositions with
      | error e => exact .duplicate hl hpositions
      | ok positions => exact .inlined hl hpositions (Source.writes_inlines ⟨c, positions⟩)
    · intro i
      cases i <;> simp

/-- A code has one end at most. -/
theorem Ends.unique {c : Code} {r q : Except CodeError Code} (hr : Ends c r) (hq : Ends c q) :
    r = q := by
  cases hr with
  | plain h =>
    cases hq with
    | plain => rfl
    | duplicate h' => exact absurd h' (h _)
    | inlined h' => exact absurd h' (h _)
  | duplicate h hpositions =>
    cases hq with
    | plain h' => exact absurd h (h' _)
    | duplicate _ hpositions' =>
      cases hpositions.symm.trans hpositions'
      rfl
    | inlined _ hpositions' => cases hpositions.symm.trans hpositions'
  | inlined h hpositions hlines =>
    cases hq with
    | plain h' => exact absurd h (h' _)
    | duplicate _ hpositions' => cases hpositions.symm.trans hpositions'
    | inlined _ hpositions' hlines' =>
      cases hpositions.symm.trans hpositions'
      rw [hlines.unique hlines']

end Resumption.Subroutine
