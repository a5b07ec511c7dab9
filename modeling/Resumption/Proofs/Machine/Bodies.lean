import Resumption.Machine.Interpreter
import Resumption.Proofs.Analysis.Edges

/-!
# Bodies and their code

A body is code with its labels resolved (`Body.ofCode_inv`). Where it goes follows the edges of the
code: a jump finds the label that stands there (`Body.find_iff`), and an exception goes to a handler
that covers the instruction (`Body.handle_edge`).
-/

namespace Resumption

namespace Body

variable {c : Code} {body : Body}

theorem ofCode_inv (h : ofCode c = .ok body) :
    body.instructions = c.instructions ∧ c.labelPositions = .ok body.positions ∧
      ∃ ranges, c.handlerRanges = .ok ranges ∧
        body.handlers = ranges.zip (c.handlers.map (·.caught)) := by
  simp only [ofCode, bind, Except.bind] at h
  split at h
  · cases h
  · rename_i positions hpositions
    split at h
    · cases h
    · rename_i ranges hranges
      cases h
      exact ⟨rfl, hpositions, ranges, hranges, rfl⟩

/-- Labels and handlers of an analyzed body are resolved. -/
theorem ofCode_analyzed {h : Hierarchy} {owner : ClassName} {name : MemberName}
    {d : MethodDescriptor} {isStatic : Bool} {c c' : Code} {a : Analysis}
    (hok : analyzeCode h owner name d isStatic c = .ok a)
    (hinstructions : c'.instructions = c.instructions) (hhandlers : c'.handlers = c.handlers) :
    ∃ body, ofCode c' = .ok body := by
  obtain ⟨analyzed⟩ := analyzeCode_analyzed hok
  have hpositions : c'.labelPositions = .ok analyzed.positions := by
    rw [Code.labelPositions, hinstructions]
    exact analyzed.positions_eq
  have hranges : c'.handlerRanges = .ok analyzed.ranges := by
    have := analyzed.ranges_eq
    rw [Code.handlerRanges, analyzed.positions_eq] at this
    rw [Code.handlerRanges, hpositions, hhandlers]
    exact this
  simp only [ofCode, hpositions, hranges, bind, Except.bind]
  exact ⟨_, rfl⟩

theorem find_iff (h : ofCode c = .ok body) {l : Label} {k : Nat} :
    body.positions.find l = .ok k ↔ c.instructions[k]? = some (.label l) :=
  Code.find_iff (ofCode_inv h).2.1

/-! ## Handlers -/

/-- The handlers of a body are those of its code, with their labels where they stand. -/
theorem mem_handlers (h : ofCode c = .ok body) {p : HandlerRange × Option ClassName}
    (hp : p ∈ body.handlers) : ∃ x ∈ c.handlers,
      c.instructions[p.1.start]? = some (.label x.start) ∧
      c.instructions[p.1.stop]? = some (.label x.stop) ∧
      c.instructions[p.1.entry]? = some (.label x.entry) := by
  obtain ⟨-, hpositions, ranges, hranges, hhandlers⟩ := ofCode_inv h
  rw [hhandlers] at hp
  obtain ⟨x, hx, hresolve⟩ :=
    (mem_of_forall₂ ((Code.handlerRanges_ok hpositions).mp hranges)).2 _ (List.of_mem_zip hp).1
  obtain ⟨hstart, hstop, hentry⟩ := Code.resolve_ok.mp hresolve
  exact ⟨x, hx, (find_iff h).mp hstart, (find_iff h).mp hstop, (find_iff h).mp hentry⟩

variable {index entry : Nat} {thrown : RefType} {m m' : Machine}

/-- An entry that is found belongs to a handler that covers the instruction. -/
theorem entryFor?_mem {handlers : List (HandlerRange × Option ClassName)}
    (h : entryFor? index thrown handlers m = .ok (some entry) m') :
    ∃ p ∈ handlers, p.1.covers index = true ∧ p.1.entry = entry := by
  induction handlers generalizing m with
  | nil => cases h
  | cons handler rest ih =>
    obtain ⟨range, caught⟩ := handler
    have hrest : ∀ {m}, entryFor? index thrown rest m = .ok (some entry) m' →
        ∃ p ∈ (range, caught) :: rest, p.1.covers index = true ∧ p.1.entry = entry := by
      intro m h
      obtain ⟨p, hp, hcovers⟩ := ih h
      exact ⟨p, List.mem_cons_of_mem _ hp, hcovers⟩
    simp only [entryFor?] at h
    split at h
    · rename_i hcovers
      simp only [bind, EStateM.bind] at h
      split at h
      · rename_i found m₁ _
        cases found with
        | true =>
          cases h
          exact ⟨_, List.mem_cons_self .., hcovers, rfl⟩
        | false => exact hrest h
      · cases h
    · exact hrest h

/-- An exception that is handled goes to the entry of a handler that covers the instruction. -/
theorem handle_ok {a b : Activation} {r : Ref} (h : body.handle a r m = .ok b m') :
    ∃ handler ∈ body.handlers, handler.1.covers a.index = true ∧
      b = { a with stack := [.ref r], index := handler.1.entry } := by
  simp only [handle, bind, EStateM.bind] at h
  split at h
  · split at h
    · rename_i found m₁ hfound
      cases found with
      | none => cases h
      | some entry =>
        cases h
        obtain ⟨handler, hhandler, hcovers, rfl⟩ := entryFor?_mem hfound
        exact ⟨handler, hhandler, hcovers, rfl⟩
    · cases h
  · cases h

/-- An exception that is handled goes along an edge, and is all that is on the stack then. -/
theorem handle_edge (hbody : ofCode c = .ok body) {a b : Activation} {r : Ref}
    (h : body.handle a r m = .ok b m') :
    ∃ x entry, c.Edge a.index (some x) entry ∧ b = { a with stack := [.ref r], index := entry } := by
  obtain ⟨handler, hhandler, hcovers, rfl⟩ := handle_ok h
  obtain ⟨x, hx, hstart, hstop, hentry⟩ := mem_handlers hbody hhandler
  simp only [HandlerRange.covers, Bool.and_eq_true, decide_eq_true_eq] at hcovers
  exact ⟨x, _, .handler hx hstart hstop hentry hcovers, rfl⟩

end Body

end Resumption
