import Resumption.Proofs.Analysis.Edges

/-!
# Ways to fail

`FailsOnly` says in which ways something can fail, if it fails at all. It has a lemma for each way of
putting computations together, so what it says of a function follows the binds of the function.

Visiting an instruction fails in few ways (`CodeError.Visiting`); an instruction that has no frame
cannot be visited (`Flow.visit_fails`).
-/

namespace Resumption

/-- If this fails, then only in these ways. -/
def FailsOnly {ε α : Type} (P : ε → Prop) (x : Except ε α) : Prop := ∀ e, x = .error e → P e

namespace FailsOnly

variable {ε δ α β : Type} {P : ε → Prop}

theorem ok (a : α) : FailsOnly P (.ok a) := nofun

theorem error {e : ε} (he : P e) : FailsOnly P (.error e : Except ε α) := by
  rintro _ heq
  cases heq
  exact he

/-- One computation after the other fails like one of the two. -/
theorem bind {x : Except ε α} {f : α → Except ε β} (hx : FailsOnly P x)
    (hf : ∀ a, x = .ok a → FailsOnly P (f a)) : FailsOnly P (x >>= f) := by
  cases x with
  | ok a => exact hf a rfl
  | error e => exact error (hx e rfl)

theorem imp {Q : ε → Prop} {x : Except ε α} (hx : FailsOnly P x) (himp : ∀ e, P e → Q e) :
    FailsOnly Q x := fun e he => himp e (hx e he)

/-- A check that is made first. -/
theorem guarded {p : Prop} [Decidable p] {e : ε} {x : Except ε α} (he : P e)
    (hx : ¬ p → FailsOnly P x) : FailsOnly P (if p then .error e else x) := by
  split
  · exact error he
  · exact hx ‹_›

/-- A fold, with what is true wherever it comes. -/
theorem foldlM {Q : β → Prop} {f : β → α → Except ε β} {xs : List α} {b : β} (hb : Q b)
    (hstep : ∀ x ∈ xs, ∀ b, Q b → FailsOnly P (f b x) ∧ ∀ b', f b x = .ok b' → Q b') :
    FailsOnly P (xs.foldlM f b) := by
  induction xs generalizing b with
  | nil => exact ok b
  | cons x xs ih =>
    obtain ⟨hx, hnext⟩ := hstep x (List.mem_cons_self ..) b hb
    rw [List.foldlM_cons]
    exact bind hx fun b' hb' => ih (hnext b' hb') fun y hy => hstep y (List.mem_cons_of_mem _ hy)

/-- A traversal fails like one of its steps. -/
theorem mapM {f : α → Except ε β} {xs : List α} (hf : ∀ x ∈ xs, FailsOnly P (f x)) :
    FailsOnly P (xs.mapM f) := by
  induction xs with
  | nil => exact ok []
  | cons x xs ih =>
    rw [List.mapM_cons]
    exact bind (hf x (List.mem_cons_self ..)) fun _ _ =>
      bind (ih fun y hy => hf y (List.mem_cons_of_mem _ hy)) fun _ _ => ok _

/-- An error of another kind, put into the words of this one. -/
theorem lift {Q : δ → Prop} {g : ε → δ} {x : Except ε α} (hx : FailsOnly P x)
    (hg : ∀ e, P e → Q (g e)) : FailsOnly Q (liftError g x) := by
  cases x with
  | ok a => exact ok a
  | error e => exact error (hg e (hx e rfl))

end FailsOnly

/-- A label that is not found is missing from the code. -/
theorem LabelPositions.find_failsOnly (positions : LabelPositions) (l : Label) :
    FailsOnly (fun e => ∃ l, e = .unplaced l) (positions.find l) := by
  intro e he
  rw [find] at he
  split at he <;> cases he
  exact ⟨l, rfl⟩

/-- The errors of an instruction that can be visited. -/
inductive CodeError.Visiting : CodeError → Prop
  /-- an instruction refuses its frame -/
  | verification (i : Instruction) (index : Nat) (reason : FrameError) :
    Visiting (.verification i index reason)
  /-- a subroutine is left over -/
  | subroutine (i : Instruction) (index : Nat) :
    Visiting (.unanalyzable (.subroutineInstruction i index))
  /-- a target is not placed -/
  | unplaced (l : Label) : Visiting (.unplacedLabel l)
  /-- there is no next instruction -/
  | fallsOffEnd : Visiting (.unanalyzable .fallsOffEnd)
  /-- frames have no least upper bound -/
  | merge (e : MergeError) : Visiting (.ofMerge e)
  /-- frames are of different depth -/
  | incompatible (l : Label) (existing incoming : Frame) :
    Visiting (.incompatibleFrames l existing incoming)

namespace Flow

variable {flow : Flow}

/-- An instruction is refused as it is verified. -/
theorem afterFrame_fails (index : Nat) (before : Frame) (i : Instruction) :
    FailsOnly CodeError.Visiting (flow.afterFrame index before i) := by
  have hstep : FailsOnly CodeError.Visiting (liftError (CodeError.verification i index)
      (before.step flow.context index i)) :=
    FailsOnly.lift (P := fun _ => True) (fun _ _ => trivial) fun reason _ => .verification i index reason
  cases i with
  | jsr l => exact .error (.subroutine _ _)
  | ret slot => exact .error (.subroutine _ _)
  | _ => exact hstep

/-- Sending frames on fails as visiting an instruction does. -/
theorem edges_fails (index : Nat) (before after : Frame) (i : Instruction) :
    FailsOnly CodeError.Visiting (flow.edges index before after i) := by
  rw [edges]
  refine FailsOnly.bind (.mapM fun x _ => ?_) fun _ _ =>
    FailsOnly.bind (.mapM fun l _ => ?_) fun _ _ => ?_
  · refine FailsOnly.bind ?_ fun _ _ => .ok _
    exact FailsOnly.lift (P := fun _ => True) (fun _ _ => trivial) fun e _ => .merge e
  · refine FailsOnly.bind ?_ fun _ _ => .ok _
    refine (flow.positions.find_failsOnly l).lift fun e he => ?_
    obtain ⟨l, rfl⟩ := he
    exact .unplaced l
  · split
    · split
      · exact .ok _
      · exact .error .fallsOffEnd
    · exact .ok _

/-- Frames that cannot be merged are reported in one of these ways. -/
theorem mergeFailure_visiting (flow : Flow) (target : Nat) (existing incoming : Frame)
    (e : MergeError) : (flow.mergeFailure target existing incoming e).Visiting := by
  unfold mergeFailure
  split
  · exact .merge (.missing _)
  · exact .incompatible _ _ _
  · exact .merge _

/-- Receiving a frame fails as visiting an instruction does. -/
theorem receive_fails (s : FlowState) (e : Nat × Frame) :
    FailsOnly CodeError.Visiting (flow.receive s e) := by
  obtain ⟨target, incoming⟩ := e
  rw [receive]
  split
  · exact .ok _
  · refine FailsOnly.bind ?_ fun _ _ => ?_
    · exact FailsOnly.lift (P := fun _ => True) (fun _ _ => trivial)
        fun e _ => flow.mergeFailure_visiting target _ incoming e
    · split <;> exact .ok _

/-- **Visiting** fails for the reasons of an instruction, or because there is no frame for it. -/
theorem visit_fails (s : FlowState) (index : Nat) :
    FailsOnly (fun e => e.Visiting ∨ e = .noFrame index) (flow.visit s index) := by
  rw [visit]
  split
  · refine ((afterFrame_fails index _ _).imp fun _ => .inl).bind fun after _ => ?_
    refine ((edges_fails index _ after _).imp fun _ => .inl).bind fun sent _ => ?_
    refine FailsOnly.foldlM (Q := fun _ => True) trivial fun edge _ s _ => ⟨?_, fun _ _ => trivial⟩
    exact (receive_fails s edge).imp fun _ => .inl
  · exact .error (.inr rfl)

end Flow

end Resumption
