import Mathlib
import Resumption.Frame.Transfer
import Resumption.Proofs.Frame.WellFormed
import Resumption.Subroutine.Inline

/-!
# Paths through code with subroutines

A path goes from instruction to instruction. A `jsr` is read as a call, which is left by the `ret` on
the local that its subroutine keeps the return address in (`Source.Next`). Handlers may take part or
not. Something may be kept track of along the way, such as how deep the stack is (`depth`).

What can be seen of a path is its trace, the visible points that it comes by (`Traces`). Two programs
have the same traces if the points of one stand for points of the other and their steps match, up to
steps in between that cannot be seen (`Matching.traces_iff`).
-/

namespace Resumption.Subroutine

variable {σ α β ω : Type}

/-! ## Traces -/

/-- What can be seen of the paths from a point, whether they end there or later. -/
inductive Traces (next : α → α → Prop) (see : α → Option ω) : α → List ω → Prop
  /-- nothing is seen -/
  | stop (a : α) : Traces next see a []
  /-- the point is seen, and that is the end -/
  | here (a : α) : Traces next see a (see a).toList
  /-- the point is seen, and then what comes after it -/
  | step {a a' : α} {seen : List ω} (h : next a a') (rest : Traces next see a' seen) :
    Traces next see a ((see a).toList ++ seen)

theorem Traces.inv {next : α → α → Prop} {see : α → Option ω} {a : α} {seen : List ω}
    (h : Traces next see a seen) : seen = [] ∨ seen = (see a).toList ∨
      ∃ a' rest, next a a' ∧ Traces next see a' rest ∧ seen = (see a).toList ++ rest := by
  cases h with
  | stop => exact .inl rfl
  | here => exact .inr (.inl rfl)
  | step hnext hrest => exact .inr (.inr ⟨_, _, hnext, hrest, rfl⟩)

/-- From here one can only go on, without being seen, to a point that stands for the other one. -/
inductive Toward (next : β → β → Prop) (see : β → Option ω) (R : α → β → Prop) : β → α → Prop
  /-- here already -/
  | here {a : α} {b : β} (h : R a b) : Toward next see R b a
  /-- by a point that is not seen, with one way out -/
  | pass {a : α} {b b' : β} (hsee : see b = none) (hnext : ∀ b'', next b b'' ↔ b'' = b')
    (h : Toward next see R b' a) : Toward next see R b a

/-- Points that stand for one another look the same, and a step of either is a step of the other,
toward points that stand for one another again. -/
structure Matching (next : α → α → Prop) (see : α → Option ω) (next' : β → β → Prop)
    (see' : β → Option ω) (R : α → β → Prop) : Prop where
  /-- they look the same -/
  see : ∀ {a b}, R a b → see' b = see a
  /-- steps of the first are steps of the second -/
  forth : ∀ {a b a'}, R a b → next a a' → ∃ b', next' b b' ∧ Toward next' see' R b' a'
  /-- steps of the second are steps of the first -/
  back : ∀ {a b b'}, R a b → next' b b' → ∃ a', next a a' ∧ Toward next' see' R b' a'

namespace Matching

variable {next : α → α → Prop} {see : α → Option ω} {next' : β → β → Prop} {see' : β → Option ω}
  {R : α → β → Prop}

/-- What cannot be seen in between is passed. -/
theorem passed {a : α} {b : β} {seen : List ω} (h : Toward next' see' R b a)
    (hseen : ∀ b, R a b → Traces next' see' b seen) : Traces next' see' b seen := by
  induction h with
  | here h => exact hseen _ h
  | @pass a b b' hsee hnext _ ih =>
    have hrest := Traces.step ((hnext b').mpr rfl) (ih hseen)
    rwa [hsee] at hrest

theorem forward (h : Matching next see next' see' R) {a : α} {seen : List ω}
    (ha : Traces next see a seen) : ∀ {b : β}, R a b → Traces next' see' b seen := by
  induction ha with
  | stop a => exact fun _ => .stop _
  | here a =>
    intro b hab
    rw [← h.see hab]
    exact .here b
  | step hstep _ ih =>
    intro b hab
    obtain ⟨b', hb, htoward⟩ := h.forth hab hstep
    rw [← h.see hab]
    exact .step hb (passed htoward fun _ => ih)

theorem backward (h : Matching next see next' see' R) {b : β} {seen : List ω}
    (hb : Traces next' see' b seen) : ∀ {a : α}, Toward next' see' R b a → Traces next see a seen := by
  -- each step of the result is one of the code, or it passes a place where nothing is seen
  induction hb with
  | stop b => exact fun _ => .stop _
  | here b =>
    intro a hba
    cases hba with
    | here hab =>
      rw [h.see hab]
      exact .here a
    | pass hsee _ _ =>
      rw [hsee]
      exact .stop a
  | step hstep _ ih =>
    intro a hba
    cases hba with
    | here hab =>
      obtain ⟨a', ha, htoward⟩ := h.back hab hstep
      rw [h.see hab]
      exact .step ha (ih htoward)
    | pass hsee hnext htoward =>
      rw [hsee]
      exact ih ((hnext _).mp hstep ▸ htoward)

/-- **Points that stand for one another have the same traces.** -/
theorem traces_iff (h : Matching next see next' see' R) {a : α} {b : β}
    (hba : Toward next' see' R b a) (seen : List ω) :
    Traces next see a seen ↔ Traces next' see' b seen :=
  ⟨fun ha => passed hba fun _ => h.forward ha, fun hb => h.backward hb hba⟩

/-- Where one can get to, one is on the way toward a point that the other side can get to. -/
theorem reaches (h : Matching next see next' see' R) {a : α} {b b' : β}
    (hba : Toward next' see' R b a) (hreach : Relation.ReflTransGen next' b b') :
    ∃ a', Relation.ReflTransGen next a a' ∧ Toward next' see' R b' a' := by
  induction hreach with
  | refl => exact ⟨a, .refl, hba⟩
  | tail _ hstep ih =>
    obtain ⟨a₁, ha₁, htoward⟩ := ih
    cases htoward with
    | here hab =>
      obtain ⟨a', ha', htoward⟩ := h.back hab hstep
      exact ⟨a', ha₁.tail ha', htoward⟩
    | pass _ hnext htoward => exact ⟨a₁, ha₁, (hnext _).mp hstep ▸ htoward⟩

end Matching

/-! ## Code -/

/-- A subroutine that has not returned yet: where it will go on, and the local that says so. -/
structure Call where
  /-- where it goes on -/
  back : Nat
  /-- the variable of the return address -/
  slot : Nat
deriving DecidableEq, Repr, Inhabited

/-- A point of a path; `data` is what is kept track of. -/
structure Point (σ : Type) where
  /-- where it is -/
  index : Nat
  /-- innermost first -/
  calls : List Call
  /-- what is kept track of -/
  data : σ

/-- What becomes of the data. -/
structure Effect (σ : Type) where
  /-- when an instruction is executed -/
  run : Instruction → σ → σ → Prop
  /-- when an exception is caught -/
  caught : σ → σ → Prop

/-- Data that does not depend on labels or on jumps. -/
structure Effect.Blind (e : Effect σ) : Prop where
  /-- labels make no difference -/
  mapLabels : ∀ i f x y, e.run (i.mapLabels f) x y ↔ e.run i x y
  /-- labels do nothing -/
  label : ∀ l x y, e.run (.label l) x y ↔ y = x
  /-- jumps do nothing -/
  goto : ∀ l x y, e.run (.goto l) x y ↔ y = x

/-- Handlers in force at each index, in order of priority: what they catch and where they begin. -/
abbrev Handlers := Nat → List (Option ClassName × Nat)

/-- Where control can go. The return address that `jsr` pushes counts as a null. A label does not
throw exceptions. -/
inductive Source.Next (s : Source) (handlers : Handlers) (e : Effect σ) : Point σ → Point σ → Prop
  /-- on to the next instruction -/
  | falls {index : Nat} {calls : List Call} {i : Instruction} {x y : σ}
    (hi : s.code.instructions[index]? = some i) (hfalls : i.fallsThrough = true)
    (he : e.run i x y) :
    s.Next handlers e ⟨index, calls, x⟩ ⟨index + 1, calls, y⟩
  /-- to a target -/
  | jumps {index target : Nat} {calls : List Call} {i : Instruction} {l : Label} {x y : σ}
    (hi : s.code.instructions[index]? = some i) (hjump : ∀ l, i ≠ .jsr l) (hl : l ∈ i.targets)
    (htarget : s.positions.find l = .ok target) (he : e.run i x y) :
    s.Next handlers e ⟨index, calls, x⟩ ⟨target, calls, y⟩
  /-- into a subroutine -/
  | enters {index start slot : Nat} {calls : List Call} {l : Label} {x y : σ}
    (hi : s.code.instructions[index]? = some (.jsr l)) (hstart : s.positions.find l = .ok start)
    (hslot : s.returnSlot l start = .ok slot) (he : e.run .pushNull x y) :
    s.Next handlers e ⟨index, calls, x⟩ ⟨start, ⟨index + 1, slot⟩ :: calls, y⟩
  /-- back from the innermost subroutine -/
  | returns {index back slot : Nat} {calls : List Call} {x : σ}
    (hi : s.code.instructions[index]? = some (.ret slot)) :
    s.Next handlers e ⟨index, ⟨back, slot⟩ :: calls, x⟩ ⟨back, calls, x⟩
  /-- to a handler that is in force -/
  | throws {index entry : Nat} {calls : List Call} {i : Instruction} {caught : Option ClassName}
    {x y : σ} (hi : s.code.instructions[index]? = some i) (hlabel : i.placed? = none)
    (hhandler : (caught, entry) ∈ handlers index) (he : e.caught x y) :
    s.Next handlers e ⟨index, calls, x⟩ ⟨entry, calls, y⟩

namespace Source

variable {s : Source} {handlers : Handlers} {e : Effect σ} {index : Nat} {calls : List Call} {x : σ}
  {b : Point σ}

/-- Where exceptions go. -/
def Throws (handlers : Handlers) (e : Effect σ) (i : Instruction) (a b : Point σ) : Prop :=
  i.placed? = none ∧ ∃ y, e.caught a.data y ∧ ∃ handler ∈ handlers a.index,
    b = ⟨handler.2, a.calls, y⟩

theorem next_of_throws {i : Instruction} (hi : s.code.instructions[index]? = some i)
    (h : Throws handlers e i ⟨index, calls, x⟩ b) : s.Next handlers e ⟨index, calls, x⟩ b := by
  obtain ⟨hlabel, y, he, ⟨caught, entry⟩, hhandler, rfl⟩ := h
  exact .throws hi hlabel hhandler he

/-- After most instructions control goes to the next one or jumps. -/
theorem next_iff {i : Instruction} (hi : s.code.instructions[index]? = some i)
    (hjsr : ∀ l, i ≠ .jsr l) (hret : ∀ slot, i ≠ .ret slot) :
    s.Next handlers e ⟨index, calls, x⟩ b ↔
      (∃ y, e.run i x y ∧ (i.fallsThrough = true ∧ b = ⟨index + 1, calls, y⟩ ∨
        ∃ l ∈ i.targets, ∃ target, s.positions.find l = .ok target ∧ b = ⟨target, calls, y⟩)) ∨
      Throws handlers e i ⟨index, calls, x⟩ b := by
  constructor
  · intro h
    cases h with
    | falls hi' hfalls he =>
      cases hi.symm.trans hi'
      exact .inl ⟨_, he, .inl ⟨hfalls, rfl⟩⟩
    | jumps hi' _ hl htarget he =>
      cases hi.symm.trans hi'
      exact .inl ⟨_, he, .inr ⟨_, hl, _, htarget, rfl⟩⟩
    | enters hi' => exact absurd (Option.some.inj (hi.symm.trans hi')) (hjsr _)
    | returns hi' => exact absurd (Option.some.inj (hi.symm.trans hi')) (hret _)
    | throws hi' hlabel hhandler he =>
      cases hi.symm.trans hi'
      exact .inr ⟨hlabel, _, he, _, hhandler, rfl⟩
  · rintro (⟨y, he, ⟨hfalls, rfl⟩ | ⟨l, hl, target, htarget, rfl⟩⟩ | h)
    · exact .falls hi hfalls he
    · exact .jumps hi hjsr hl htarget he
    · exact next_of_throws hi h

/-- A label only lets control pass. -/
theorem next_label (he : e.Blind) {l : Label} (hi : s.code.instructions[index]? = some (.label l)) :
    s.Next handlers e ⟨index, calls, x⟩ b ↔ b = ⟨index + 1, calls, x⟩ := by
  rw [next_iff hi (by simp) (by simp)]
  simp [he.label, Instruction.fallsThrough, Instruction.targets, Throws, Instruction.placed?]

/-- A `jsr` enters its subroutine. -/
theorem next_jsr {l : Label} (hi : s.code.instructions[index]? = some (.jsr l)) :
    s.Next handlers e ⟨index, calls, x⟩ b ↔
      (∃ start slot y, s.positions.find l = .ok start ∧ s.returnSlot l start = .ok slot ∧
        e.run .pushNull x y ∧ b = ⟨start, ⟨index + 1, slot⟩ :: calls, y⟩) ∨
      Throws handlers e (.jsr l) ⟨index, calls, x⟩ b := by
  constructor
  · intro h
    cases h with
    | falls hi' hfalls =>
      cases hi.symm.trans hi'
      cases hfalls
    | jumps hi' hjsr => exact absurd (Option.some.inj (hi'.symm.trans hi)) (hjsr l)
    | enters hi' hstart hslot he =>
      cases hi.symm.trans hi'
      exact .inl ⟨_, _, _, hstart, hslot, he, rfl⟩
    | returns hi' => cases hi.symm.trans hi'
    | throws hi' hlabel hhandler he =>
      cases hi.symm.trans hi'
      exact .inr ⟨hlabel, _, he, _, hhandler, rfl⟩
  · rintro (⟨start, slot, y, hstart, hslot, he, rfl⟩ | h)
    · exact .enters hi hstart hslot he
    · exact next_of_throws hi h

/-- A `ret` leaves the innermost call, if that is the one it is for. -/
theorem next_ret {slot : Nat} (hi : s.code.instructions[index]? = some (.ret slot)) :
    s.Next handlers e ⟨index, calls, x⟩ b ↔
      (∃ back rest, calls = ⟨back, slot⟩ :: rest ∧ b = ⟨back, rest, x⟩) ∨
      Throws handlers e (.ret slot) ⟨index, calls, x⟩ b := by
  constructor
  · intro h
    cases h with
    | falls hi' hfalls =>
      cases hi.symm.trans hi'
      cases hfalls
    | jumps hi' _ hl =>
      cases hi.symm.trans hi'
      cases hl
    | enters hi' => cases hi.symm.trans hi'
    | returns hi' =>
      cases hi.symm.trans hi'
      exact .inl ⟨_, _, rfl, rfl⟩
    | throws hi' hlabel hhandler he =>
      cases hi.symm.trans hi'
      exact .inr ⟨hlabel, _, he, _, hhandler, rfl⟩
  · rintro (⟨back, rest, rfl, rfl⟩ | h)
    · exact .returns hi
    · exact next_of_throws hi h

end Source

/-- How many words are on the stack before an instruction and after it, in frames where it can
run. A handler finds the exception alone. -/
def depth : Effect Nat where
  run i before after := ∃ context index f f',
    Frame.step context index f i = .ok f' ∧ f.words = before ∧ f'.words = after
  caught _ after := after = 1

theorem step_mapLabels (context : MethodContext) (index : Nat) (frame : Frame) (i : Instruction)
    (f : Label → Label) :
    frame.step context index (i.mapLabels f) = frame.step context index i := by
  cases i <;> rfl

theorem words_replicate (n : Nat) : Frame.words ⟨[], List.replicate n .integer⟩ = n := by
  induction n with
  | zero => rfl
  | succ n ih =>
    calc Frame.words ⟨[], List.replicate (n + 1) .integer⟩
        = 1 + Frame.words ⟨[], List.replicate n .integer⟩ := rfl
      _ = n + 1 := by rw [ih, Nat.add_comm]

/-- Marks and jumps leave the stack alone. -/
theorem depth_of_nothing {i : Instruction} (h : i.fixedEffect? = some ([], [])) (x y : Nat) :
    depth.run i x y ↔ y = x := by
  constructor
  · rintro ⟨context, index, f, f', hstep, rfl, rfl⟩
    simp only [Frame.step, h] at hstep
    cases hstep
    rfl
  · rintro rfl
    refine ⟨default, 0, ⟨[], List.replicate y .integer⟩, ⟨[], List.replicate y .integer⟩, ?_,
      words_replicate y, words_replicate y⟩
    simp only [Frame.step, h]
    rfl

theorem depth_blind : depth.Blind where
  mapLabels i f x y := by simp only [depth, step_mapLabels]
  label l := depth_of_nothing rfl
  goto l := depth_of_nothing rfl

end Resumption.Subroutine
