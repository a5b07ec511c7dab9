import Resumption.Proofs.Machine.Agreement
import Resumption.Proofs.Machine.Throwing

/-!
# Places that a run gets to

Steps are determined, so a path says where a run is, and not only where it may be:

* **`advance_arrives`**: a step goes to the next instruction, to a target of its instruction, or to
  a handler that covers it, whatever the activation holds.
* **`Reaches.stays`**: places that no step leads out of are not left.
* **`Begins`** says that a body begins another one. A path through the beginning is one through the
  whole body (`Begins.reaches`), and a run that has taken it is still in the beginning or goes on
  from its end (`Begins.reached`).
-/

namespace Resumption

/-- Labels of the first part of a list are placed if those of the whole list are. -/
theorem Code.placeLabels_append {is js : List Instruction} {index : Nat}
    {placed positions : LabelPositions}
    (h : placeLabels index placed (is ++ js) = .ok positions) :
    ∃ positions', placeLabels index placed is = .ok positions' := by
  induction is generalizing index placed with
  | nil => exact ⟨placed, rfl⟩
  | cons i is ih =>
    simp only [List.cons_append, placeLabels] at h ⊢
    split at h
    · exact ih h
    · split at h
      · cases h
      · rename_i hfresh
        rw [if_neg hfresh]
        exact ih h

namespace Step

variable {callees : Callees} {a b : Activation} {m m' : Machine} {p : Progress}

/-- A computation that goes on came through its first part. -/
theorem bind_ok {α β : Type} {x : Step α} {f : α → Step β} {r : β}
    (h : (x >>= f) a m = .ok (r, b) m') :
    ∃ v a' m₁, x a m = .ok (v, a') m₁ ∧ f v a' m₁ = .ok (r, b) m' := by
  simp only [bind, StateT.bind, EStateM.bind] at h
  split at h
  · exact ⟨_, _, _, ‹_›, h⟩
  · cases h

theorem andNext_ok {x : Step Unit} (h : andNext x a m = .ok (p, b) m') : p = .next := by
  obtain ⟨_, _, _, -, h⟩ := bind_ok h
  cases h
  rfl

/-- **Instructions** go on to the next one or to one of their targets. -/
theorem execute_continues {i : Instruction} (h : execute callees i a m = .ok (p, b) m') :
    i.Continues p := by
  cases i with
  | label _ | lineNumber _ | nop | goto _ | returnVoid =>
    cases h
    first | rfl | exact List.mem_singleton_self _ | trivial
  | ifZero comparison target | ifNull equality target =>
    obtain ⟨v, _, _, -, h⟩ := bind_ok h
    cases h
    exact continues_jumpIf rfl rfl _
  | ifInt comparison target | ifRef equality target =>
    obtain ⟨v, _, _, -, h⟩ := bind_ok h
    obtain ⟨w, _, _, -, h⟩ := bind_ok h
    cases h
    exact continues_jumpIf rfl rfl _
  | tableSwitch low default targets =>
    obtain ⟨n, _, _, -, h⟩ := bind_ok h
    cases h
    exact tableTarget_mem low default targets n
  | lookupSwitch default cases =>
    obtain ⟨n, _, _, -, h⟩ := bind_ok h
    cases h
    exact lookupTarget_mem default cases n
  | returnValue _ =>
    obtain ⟨v, _, _, -, h⟩ := bind_ok h
    cases h
    trivial
  | throw =>
    obtain ⟨r, _, _, -, h⟩ := bind_ok h
    cases h
  | invokeDynamic _ | jsr _ | ret _ => cases h
  | pushConstant c =>
    cases c with
    | string s =>
      cases andNext_ok h
      rfl
    | _ => cases h
  | _ =>
    cases andNext_ok h
    rfl

end Step

namespace Body

variable {callees : Callees} {run : MethodRunner} {body : Body} {a b x : Activation}
  {m m' mx : Machine}

/-- What a step that goes on did. -/
inductive Arrives (body : Body) (index : Nat) (i : Instruction) (target : Nat) : Prop
  /-- on to the next instruction -/
  | next (hfalls : i.fallsThrough = true) (htarget : target = index + 1)
  /-- to a target -/
  | jump {l : Label} (hl : l ∈ i.targets) (htarget : body.positions.find l = .ok target)
  /-- to a handler -/
  | handler {handler : HandlerRange × Option ClassName} (hmem : handler ∈ body.handlers)
    (hcovers : handler.1.covers index = true) (htarget : target = handler.1.entry)

/-- **A step** goes where its instruction or a handler says. -/
theorem advance_arrives (hrun : Plain run)
    (h : body.advance (Run.callees run) a m = .ok (.continue b) m') :
    ∃ i, body.instructions[a.index]? = some i ∧ body.Arrives a.index i b.index := by
  cases hi : body.instructions[a.index]? with
  | none =>
    simp only [advance, hi] at h
    cases h
  | some i =>
    refine ⟨i, rfl, ?_⟩
    rw [advance_eq hi] at h
    cases hx : Step.execute (Run.callees run) i a m with
    | ok p m₁ =>
      obtain ⟨progress, c⟩ := p
      have hcontinues := Step.execute_continues hx
      rw [hx] at h
      cases progress with
      | next =>
        cases h
        exact .next hcontinues (by rw [index_execute hrun hx])
      | jump l =>
        simp only [afterExecute] at h
        split at h
        · cases h
          exact .jump hcontinues ‹_›
        · cases h
      | done v => cases h
    | error e m₁ =>
      rw [hx] at h
      cases e with
      | failure e => cases h
      | exception r =>
        simp only [afterExecute] at h
        split at h
        · cases h
          obtain ⟨handler, hmem, hcovers, rfl⟩ := handle_ok ‹_›
          exact .handler hmem hcovers rfl
        · cases h

/-- **Places that no step leads out of** are not left. -/
theorem Reaches.stays {S : Nat → Prop}
    (hclosed : ∀ a m b m', S a.index → body.advance callees a m = .ok (.continue b) m' → S b.index)
    (h : Reaches callees body a m b m') (ha : S a.index) : S b.index := by
  induction h with
  | refl => exact ha
  | step first _ ih => exact ih (hclosed _ _ _ _ ha first)

/-! ## The beginning of a body -/

/-- Does the body begin another one? Nothing is handled in it. -/
structure Begins (front body : Body) : Prop where
  /-- instructions are the same -/
  instructions : ∀ (k : Nat) i, front.instructions[k]? = some i → body.instructions[k]? = some i
  /-- labels are at the same places -/
  positions : ∀ l k, front.positions.find l = .ok k → body.positions.find l = .ok k
  /-- no handler is in force -/
  handlers : front.handlers = []

namespace Begins

variable {front : Body}

/-- A step in the beginning is one in the whole body. -/
theorem advance (h : front.Begins body)
    (hstep : front.advance callees a m = .ok (.continue b) m') :
    body.advance callees a m = .ok (.continue b) m' ∧ a.index < front.instructions.size := by
  cases hi : front.instructions[a.index]? with
  | none =>
    simp only [Body.advance, hi] at hstep
    cases hstep
  | some i =>
    refine ⟨?_, (Array.getElem?_eq_some_iff.mp hi).1⟩
    rw [advance_eq hi] at hstep
    rw [advance_eq (h.instructions _ _ hi)]
    cases hx : Step.execute callees i a m with
    | ok p m₁ =>
      obtain ⟨progress, c⟩ := p
      rw [hx] at hstep
      cases progress with
      | next => exact hstep
      | jump l =>
        simp only [afterExecute] at hstep ⊢
        split at hstep
        · rename_i target htarget
          rw [h.positions l target htarget]
          exact hstep
        · cases hstep
      | done v => cases hstep
    | error e m₁ =>
      rw [hx] at hstep
      cases e with
      | failure e => cases hstep
      | exception r =>
        simp only [afterExecute] at hstep
        split at hstep
        · obtain ⟨handler, hmem, -⟩ := handle_ok ‹_›
          rw [h.handlers] at hmem
          cases hmem
        · cases hstep

/-- A path through the beginning is one through the whole body. -/
theorem reaches (h : front.Begins body) (hpath : Reaches callees front a m b m') :
    Reaches callees body a m b m' := by
  induction hpath with
  | refl => exact .refl _ _
  | step first _ ih => exact .step (h.advance first).1 ih

/-- **A run whose path through the beginning is known**: it is still in the beginning, or goes on
from where the path ends. -/
theorem reached (h : front.Begins body) (hpath : Reaches callees front a m b m')
    (hrun : Reaches callees body a m x mx) :
    x.index < front.instructions.size ∨ Reaches callees body b m' x mx := by
  induction hpath with
  | refl => exact .inr hrun
  | step first _ ih =>
    obtain ⟨hstep, hinside⟩ := h.advance first
    cases hrun with
    | refl => exact .inl hinside
    | step first' rest =>
      -- there is one step only
      rw [hstep] at first'
      cases first'
      exact ih rest

end Begins

/-- The code that a body begins with is a body of its own. -/
theorem exists_begins {c : Code} (hbody : ofCode c = .ok body) {is : List Instruction}
    (hat : body.Has 0 is) : ∃ front, ofCode (.ofInstructions is []) = .ok front ∧
      front.instructions.toList = is ∧ front.Begins body := by
  obtain ⟨hinstructions, hpositions, -⟩ := ofCode_inv hbody
  have hprefix : is <+: c.instructions.toList := by
    rw [← hinstructions]
    exact hat
  obtain ⟨rest, hrest⟩ := id hprefix
  rw [Code.labelPositions, ← hrest] at hpositions
  obtain ⟨positions, hplaced⟩ := Code.placeLabels_append hpositions
  have hfront : ofCode (.ofInstructions is []) = .ok ⟨is.toArray, positions, []⟩ := by
    have hlabels : (Code.ofInstructions is []).labelPositions = .ok positions := hplaced
    simp only [ofCode, Code.handlerRanges, hlabels, bind, Except.bind]
    rfl
  have hinside : ∀ (k : Nat) i, is[k]? = some i → c.instructions[k]? = some i := by
    intro k i hi
    rw [← Array.getElem?_toList, ← hrest]
    rw [List.getElem?_append_left (List.getElem?_eq_some_iff.mp hi).1, hi]
  refine ⟨_, hfront, rfl, ?_, fun l k hfind => ?_, rfl⟩
  · intro k i hi
    rw [hinstructions]
    exact hinside k i (by simpa using hi)
  · have hlabel := (find_iff hfront).mp hfind
    exact (find_iff hbody).mpr (hinside k _ (by simpa [Code.ofInstructions] using hlabel))

end Body

end Resumption
