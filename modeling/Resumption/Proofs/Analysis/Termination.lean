import Resumption.Proofs.Analysis.Failing
import Resumption.Proofs.Analysis.Fixpoint
import Resumption.Proofs.Frame.Rising
import Resumption.Proofs.Frame.Sizes
import Resumption.Proofs.Hierarchy.Walks

/-!
# The analysis comes to an end

The analysis visits instructions until none is left. An instruction comes back on the worklist each
time its frame is replaced, and each time the frame rises (`Frame.Rises`). If nothing is above the
root, no frame rises for ever, so the analysis ends, whatever the code.

To say how soon, `Flow.left` counts how often an instruction can still be visited: once for each step
that its frame can still rise, and once more if it is on the worklist. A visit takes one from the
instruction that is visited and adds nothing to the others (`visit_left`). A frame cannot be higher
than it is large, so its size is bounded first (`Bounded`): a stack is no deeper than two entries for
each instruction that has a frame, and types have no more array dimensions than the code names.

* **`Flow.Visits`** is a run of the analysis that need not come to an end, `Flow.round` one round of
  it.
* **`Flow.Settles`** says that a run comes to an end, what bounds the visits of each instruction, and
  that frames only rise.
* **`analyzeCode_ends`**: every analysis does so, and the walks up the hierarchy that it makes on the
  way come to an end too.
-/

namespace Resumption

/-! ## Runs -/

namespace Flow

/-- One round of the analysis: visit what is next, or stop if there is nothing. -/
def round (flow : Flow) : Round FlowState CodeError FlowState := fun s =>
  match s.worklist with
  | [] => .ok (.inl s)
  | index :: rest => do return .inr (← flow.visit { s with worklist := rest } index)

/-- Visits one after the other, with the instructions that are visited. -/
inductive Visits (flow : Flow) : FlowState → List Nat → FlowState → Prop
  /-- none -/
  | nil (s : FlowState) : Visits flow s [] s
  /-- one instruction, and then the rest -/
  | cons {s s' s'' : FlowState} {index : Nat} {rest visited : List Nat}
    (hnext : s.worklist = index :: rest)
    (hvisit : flow.visit { s with worklist := rest } index = .ok s')
    (hrest : Visits flow s' visited s'') : Visits flow s (index :: visited) s''

/-- Frames have only risen from one state to another. -/
def Rose (flow : Flow) (s s' : FlowState) : Prop :=
  ∀ k f, s.frameAt k = some f →
    ∃ g, s'.frameAt k = some g ∧ Relation.ReflTransGen (Frame.Rises flow.hierarchy) f g

/-- What it means that the analysis of a body settles, from the frame on entry on. -/
structure Settles (flow : Flow) (locals : Nat) (entry : Frame) (start : FlowState) : Prop where
  /-- the loop ends, and its fuel is not used up -/
  ends : ∃ n, flow.round.Ends start n (flow.settle (flow.visitBound locals entry) start)
  /-- each instruction is visited so many times at most -/
  finite : ∀ {visited s}, flow.Visits start visited s → ∀ index,
    visited.count index ≤ 1 + flow.frameHeight locals entry
  /-- each frame that a visit replaces rises, once for each time it is replaced -/
  rises : ∀ {visited s s' index rest}, flow.Visits start visited s → s.worklist = index :: rest →
    flow.visit { s with worklist := rest } index = .ok s' → flow.Rose s s'

variable {flow : Flow}

/-- Settling is a round, and then settling. -/
theorem settle_round (flow : Flow) (fuel : Nat) (s : FlowState) :
    flow.settle (fuel + 1) s = flow.round s >>= Sum.elim .ok (flow.settle fuel) := by
  obtain ⟨frames, worklist, maxStack⟩ := s
  cases worklist with
  | nil => rfl
  | cons index rest =>
    simp only [settle, round]
    cases flow.visit ⟨frames, rest, maxStack⟩ index <;> rfl

/-- A round visits the first instruction on the list. -/
theorem round_next {s s' : FlowState} (h : flow.round s = .ok (.inr s')) :
    ∃ index rest, s.worklist = index :: rest ∧
      flow.visit { s with worklist := rest } index = .ok s' := by
  simp only [round] at h
  split at h
  · cases h
  · rename_i index rest hnext
    obtain ⟨s₁, hvisit, h⟩ := Except.bind_ok.mp h
    cases h
    exact ⟨index, rest, hnext, hvisit⟩

/-- A round does not give up. -/
theorem round_settled {s : FlowState} : flow.round s ≠ .error (.unanalyzable .unsettled) := by
  intro h
  simp only [round] at h
  split at h
  · cases h
  · rename_i index rest _
    cases hvisit : flow.visit { s with worklist := rest } index with
    | ok s' =>
      rw [hvisit] at h
      cases h
    | error e =>
      rw [hvisit] at h
      cases h
      rcases flow.visit_fails _ index _ hvisit with he | he
      · generalize hunsettled : CodeError.unanalyzable .unsettled = e at he
        cases he with
        | merge e => cases e <;> cases hunsettled
        | _ => cases hunsettled
      · cases he

end Flow

/-! ## Sizes -/

/-- How large the entries of a frame are: so many locals, and types of so many dimensions. -/
structure Frame.Fits (locals dims : Nat) (f : Frame) : Prop where
  /-- the frame has a shape that is known -/
  wellFormed : f.WellFormed locals
  /-- no array has more dimensions -/
  dimensions : f.All (·.dimensions ≤ dims)

namespace Frame

variable {h : Hierarchy} {locals dims index : Nat} {context : MethodContext} {i : Instruction}
  {f f' a b m : Frame}

/-- A step keeps the bounds of a frame. -/
theorem Fits.step (hf : f.Fits locals dims) (hi : i.dimensions ≤ dims)
    (hok : f.step context index i = .ok f') : f'.Fits locals dims :=
  ⟨step_wellFormed hf.wellFormed hok, step_dimensions hf.dimensions hi hok⟩

/-- A handler finds a frame within the bounds. -/
theorem Fits.handler (hf : f.Fits locals dims) (caught : Option ClassName) :
    (f.handler caught).Fits locals dims :=
  ⟨hf.wellFormed.handler caught, handler_dimensions hf.dimensions caught⟩

theorem Fits.length_eq (ha : a.Fits locals dims) (hb : b.Fits locals dims) :
    a.locals.length = b.locals.length := ha.wellFormed.length.trans hb.wellFormed.length.symm

/-- Merging keeps the bounds of frames. -/
theorem Fits.merge (ha : a.Fits locals dims) (hb : b.Fits locals dims)
    (hok : Frame.merge h a b = .ok m) : m.Fits locals dims :=
  ⟨merge_wellFormed ha.wellFormed hb.wellFormed hok,
    merge_all (Nat.zero_le dims) SlotType.merge_dimensions (ha.length_eq hb) ha.dimensions
      hb.dimensions hok⟩

/-- Frames that are merged have stacks of one depth. -/
theorem merge_depth (ha : a.Fits locals dims) (hb : b.Fits locals dims)
    (hok : Frame.merge h a b = .ok m) : m.stack.length = a.stack.length := by
  obtain ⟨hdepth, hstack, -⟩ := (merge_iff (ha.length_eq hb)).mp hok
  rw [← hstack.length_eq, List.length_zip, ← hdepth, Nat.min_self]

end Frame

theorem le_foldl_add {α : Type} (g : α → Nat) (xs : List α) (n : Nat) :
    n ≤ xs.foldl (fun n x => n + g x) n := by
  induction xs generalizing n with
  | nil => exact Nat.le_refl n
  | cons x xs ih => exact Nat.le_trans (Nat.le_add_right n (g x)) (ih _)

theorem le_foldl_add_of_mem {α : Type} (g : α → Nat) {xs : List α} {x : α} (hx : x ∈ xs) (n : Nat) :
    g x ≤ xs.foldl (fun n x => n + g x) n := by
  induction xs generalizing n with
  | nil => cases hx
  | cons y xs ih =>
    rcases List.mem_cons.mp hx with rfl | hx
    · exact Nat.le_trans (Nat.le_add_left (g x) n) (le_foldl_add g xs _)
    · exact ih hx _

/-- No instruction makes arrays of more dimensions than the bound says. -/
theorem Flow.dimensions_le {flow : Flow} (entry : Frame) {index : Nat} {i : Instruction}
    (hi : flow.instructions[index]? = some i) : i.dimensions ≤ flow.dimensions entry := by
  rw [dimensions, ← Array.foldl_toList]
  have hmem := Array.mem_toList_iff.mpr (Array.mem_of_getElem? hi)
  exact Nat.le_add_right_of_le (le_foldl_add_of_mem _ hmem 0)

theorem Flow.entry_dimensions_le (flow : Flow) {entry : Frame} (hstack : entry.stack = []) :
    entry.All (·.dimensions ≤ flow.dimensions entry) := by
  constructor
  · intro t ht
    exact Nat.le_add_left_of_le (le_foldl_add_of_mem _ ht 0)
  · rw [hstack]
    exact nofun

namespace FlowState

/-- The instructions that have a frame. -/
def reached (s : FlowState) : Finset Nat :=
  (Finset.range s.frames.size).filter fun k => (s.frameAt k).isSome

variable {s : FlowState} {target : Nat} {f : Frame}

theorem mem_reached {k : Nat} : k ∈ s.reached ↔ k < s.frames.size ∧ (s.frameAt k).isSome := by
  rw [reached, Finset.mem_filter, Finset.mem_range]

/-- No more instructions are reached than there are. -/
theorem card_reached_le (s : FlowState) : s.reached.card ≤ s.frames.size :=
  (Finset.card_filter_le ..).trans_eq (Finset.card_range _)

/-- The frames after one was put in place. -/
theorem frameAt_enqueue_eq (htarget : target < s.frames.size) (k : Nat) :
    (s.enqueue target f).frameAt k = if target = k then some f else s.frameAt k := by
  simp only [frameAt, enqueue, getD_set!, htarget, and_true]

theorem size_enqueue : (s.enqueue target f).frames.size = s.frames.size := by
  simp [enqueue]

/-- An instruction that is sent a frame is reached. -/
theorem reached_enqueue (htarget : target < s.frames.size) :
    (s.enqueue target f).reached = insert target s.reached := by
  ext k
  rw [Finset.mem_insert, mem_reached, mem_reached, size_enqueue, frameAt_enqueue_eq htarget]
  by_cases hk : target = k
  · subst hk
    simp [htarget]
  · have hk' : k ≠ target := fun heq => hk heq.symm
    simp [hk, hk']

/-- An instruction that is sent a frame is put on the list at most once more. -/
theorem count_enqueue_self (s : FlowState) (target : Nat) (f : Frame) :
    (s.enqueue target f).worklist.count target ≤ s.worklist.count target + 1 := by
  simp only [enqueue]
  split
  · exact Nat.le_succ _
  · rw [List.count_cons_self]

/-- Other instructions are not put on the list. -/
theorem count_enqueue_ne {k : Nat} (hk : target ≠ k) :
    (s.enqueue target f).worklist.count k = s.worklist.count k := by
  simp only [enqueue]
  split
  · rfl
  · rw [List.count_cons_of_ne hk]

end FlowState

namespace Flow

/-- How large the frames are that the analysis has found. -/
structure Bounded (flow : Flow) (locals : Nat) (entry : Frame) (s : FlowState) : Prop where
  /-- there is a place for every instruction -/
  size : s.frames.size = flow.instructions.size
  /-- all frames are bounded -/
  fits : ∀ {k f}, s.frameAt k = some f → f.Fits locals (flow.dimensions entry)
  /-- a stack grows by at most two operands from one instruction to the next -/
  depth : ∀ {k f}, s.frameAt k = some f → f.stack.length + 2 ≤ 2 * s.reached.card

variable {flow : Flow} {locals : Nat} {entry : Frame} {s s' : FlowState} {target : Nat} {f : Frame}

/-- Bounds are kept when a frame is put in front of an instruction. -/
theorem Bounded.enqueue (hs : flow.Bounded locals entry s) (htarget : target < flow.instructions.size)
    (hf : f.Fits locals (flow.dimensions entry))
    (hdepth : f.stack.length + 2 ≤ 2 * (s.enqueue target f).reached.card) :
    flow.Bounded locals entry (s.enqueue target f) := by
  have hplace : target < s.frames.size := hs.size ▸ htarget
  have hmore : s.reached.card ≤ (s.enqueue target f).reached.card := by
    rw [FlowState.reached_enqueue hplace]
    exact Finset.card_le_card (Finset.subset_insert ..)
  constructor
  · rw [FlowState.size_enqueue, hs.size]
  · intro k g hg
    rcases FlowState.frameAt_enqueue hg with ⟨-, rfl⟩ | hg
    · exact hf
    · exact hs.fits hg
  · intro k g hg
    rcases FlowState.frameAt_enqueue hg with ⟨-, rfl⟩ | hg
    · exact hdepth
    · have := hs.depth hg
      omega

/-- A frame can rise as often as its entries can. -/
theorem Bounded.climb_le (hs : flow.Bounded locals entry s) {k : Nat} (hf : s.frameAt k = some f) :
    f.climb flow.hierarchy (flow.dimensions entry) ≤ flow.frameHeight locals entry := by
  have hdepth := hs.depth hf
  have hreached := s.card_reached_le
  have hlength := (hs.fits hf).wellFormed.length
  rw [hs.size] at hreached
  refine (Frame.climb_le flow.hierarchy (hs.fits hf).dimensions).trans ?_
  apply Nat.mul_le_mul_right
  omega

/-! ## Visits that are left -/

/-- How often an instruction can still be visited. -/
noncomputable def left (flow : Flow) (locals : Nat) (entry : Frame) (s : FlowState) (k : Nat) : Nat :=
  (match s.frameAt k with
    | none => 1 + flow.frameHeight locals entry
    | some f => f.climb flow.hierarchy (flow.dimensions entry)) + s.worklist.count k

/-- What is left to be done at an instruction that has a frame: the steps that the frame can still
rise, and the visits that are due. -/
theorem left_of_frame {k : Nat} (hf : s.frameAt k = some f) : flow.left locals entry s k =
    f.climb flow.hierarchy (flow.dimensions entry) + s.worklist.count k := by
  simp only [left, hf]

/-- What is left to be done at an instruction that has none. -/
theorem left_of_none {k : Nat} (hnone : s.frameAt k = none) : flow.left locals entry s k =
    1 + flow.frameHeight locals entry + s.worklist.count k := by
  simp only [left, hnone]

/-- A frame that is put in place has risen, which makes up for the visit that is to come. -/
theorem left_enqueue (htarget : target < s.frames.size)
    (hless : f.climb flow.hierarchy (flow.dimensions entry) + s.worklist.count target <
      flow.left locals entry s target) (k : Nat) :
    flow.left locals entry (s.enqueue target f) k ≤ flow.left locals entry s k := by
  by_cases hk : target = k
  · subst hk
    have hself : (s.enqueue target f).frameAt target = some f := by
      rw [FlowState.frameAt_enqueue_eq htarget, if_pos rfl]
    have hcount := s.count_enqueue_self target f
    rw [left_of_frame hself]
    omega
  · simp only [left, FlowState.frameAt_enqueue_eq htarget, if_neg hk, FlowState.count_enqueue_ne hk]
    exact Nat.le_refl _

/-- The instruction that is visited leaves the worklist. -/
theorem left_visited {index : Nat} {rest : List Nat} {before after : Frame}
    (hnext : s.worklist = index :: rest) (k : Nat) :
    flow.left locals entry (flow.visited { s with worklist := rest } index before after) k +
      (if k = index then 1 else 0) = flow.left locals entry s k := by
  have hcount : rest.count k + (if k = index then 1 else 0) = s.worklist.count k := by
    rw [hnext, List.count_cons]
    simp only [beq_iff_eq, eq_comm (a := k)]
  rw [left, left, ← hcount, ← Nat.add_assoc]
  rfl

theorem Rose.refl (s : FlowState) : flow.Rose s s := fun _ f hf => ⟨f, hf, .refl⟩

theorem Rose.trans {s'' : FlowState} (h : flow.Rose s s') (h' : flow.Rose s' s'') :
    flow.Rose s s'' := by
  intro k f hf
  obtain ⟨g, hg, hfg⟩ := h k f hf
  obtain ⟨g', hg', hgg⟩ := h' k g hg
  exact ⟨g', hg', hfg.trans hgg⟩

/-- A frame that is put in place of a lower one has risen. -/
theorem Rose.enqueue (htarget : target < s.frames.size)
    (hrises : ∀ g, s.frameAt target = some g → Frame.Rises flow.hierarchy g f) :
    flow.Rose s (s.enqueue target f) := by
  intro k g hg
  by_cases hk : target = k
  · subst hk
    exact ⟨f, by rw [FlowState.frameAt_enqueue_eq htarget, if_pos rfl], .single (hrises g hg)⟩
  · exact ⟨g, by rw [FlowState.frameAt_enqueue_eq htarget, if_neg hk, hg], .refl⟩

/-- What receiving frames keeps true and does not make more of. -/
structure Spends (flow : Flow) (locals : Nat) (entry : Frame) (s s' : FlowState) : Prop where
  /-- the bounds still hold -/
  bounded : flow.Bounded locals entry s'
  /-- no frame is taken away -/
  reached : s.reached.card ≤ s'.reached.card
  /-- no frame has more steps to rise than before -/
  left : ∀ k, flow.left locals entry s' k ≤ flow.left locals entry s k
  /-- some frame has risen -/
  rose : flow.Rose s s'

/-- **Receiving a frame.** Where it is the first one, a visit was set aside for it; where it replaces
one, that one rises. -/
theorem receive_spends (ht : flow.hierarchy.Topped) (hs : flow.Bounded locals entry s)
    {incoming : Frame} (htarget : target < flow.instructions.size)
    (hin : incoming.Fits locals (flow.dimensions entry))
    (hdepth : incoming.stack.length ≤ 2 * s.reached.card)
    (h : flow.receive s (target, incoming) = .ok s') : flow.Spends locals entry s s' := by
  have hplace : target < s.frames.size := hs.size ▸ htarget
  rcases receive_cases h with ⟨rfl, -⟩ | ⟨hnone, rfl⟩ | ⟨existing, merged, hexisting, hmerge, hne, rfl⟩
  · exact ⟨hs, Nat.le_refl _, fun _ => Nat.le_refl _, .refl s'⟩
  · have hcard : (s.enqueue target incoming).reached.card = s.reached.card + 1 := by
      rw [FlowState.reached_enqueue hplace, Finset.card_insert_of_notMem]
      simp [FlowState.mem_reached, hnone]
    have hbounded := hs.enqueue htarget hin (by omega)
    have hself : (s.enqueue target incoming).frameAt target = some incoming := by
      rw [FlowState.frameAt_enqueue_eq hplace, if_pos rfl]
    refine ⟨hbounded, by omega, left_enqueue hplace ?_, .enqueue hplace ?_⟩
    · have hclimb := hbounded.climb_le hself
      rw [left_of_none hnone]
      omega
    · intro g hg
      rw [hnone] at hg
      cases hg
  · have hfits := hs.fits hexisting
    have hmerged := hfits.merge hin hmerge
    have hrises := Frame.merge_rises (hfits.length_eq hin) hmerge hne
    have hcard : (s.enqueue target merged).reached.card = s.reached.card := by
      rw [FlowState.reached_enqueue hplace, Finset.insert_eq_of_mem]
      exact FlowState.mem_reached.mpr ⟨hplace, by rw [hexisting]; rfl⟩
    have hexistingDepth := hs.depth hexisting
    have hmergedDepth := Frame.merge_depth hfits hin hmerge
    refine ⟨hs.enqueue htarget hmerged (by omega), by omega, left_enqueue hplace ?_,
      .enqueue hplace ?_⟩
    · have hclimb := Frame.climb_lt ht hmerged.dimensions hrises
      rw [left_of_frame hexisting]
      omega
    · intro g hg
      obtain rfl : existing = g := Option.some.inj (hexisting.symm.trans hg)
      exact hrises

theorem Spends.trans {s'' : FlowState} (h : flow.Spends locals entry s s')
    (h' : flow.Spends locals entry s' s'') : flow.Spends locals entry s s'' :=
  ⟨h'.bounded, Nat.le_trans h.reached h'.reached, fun k => Nat.le_trans (h'.left k) (h.left k),
    h.rose.trans h'.rose⟩

/-- Receiving all that an instruction sends. -/
theorem receiveAll_spends (ht : flow.hierarchy.Topped) {sent : List (Nat × Frame)}
    (hs : flow.Bounded locals entry s)
    (hsent : ∀ e ∈ sent, e.1 < flow.instructions.size ∧
      e.2.Fits locals (flow.dimensions entry) ∧ e.2.stack.length ≤ 2 * s.reached.card)
    (h : sent.foldlM flow.receive s = .ok s') : flow.Spends locals entry s s' := by
  induction sent generalizing s with
  | nil =>
    cases h
    exact ⟨hs, Nat.le_refl _, fun _ => Nat.le_refl _, .refl s'⟩
  | cons e sent ih =>
    rw [List.foldlM_cons] at h
    obtain ⟨s₁, hfirst, h⟩ := Except.bind_ok.mp h
    obtain ⟨htarget, hfits, hdepth⟩ := hsent e (List.mem_cons_self ..)
    have hone := receive_spends ht hs htarget hfits hdepth hfirst
    refine hone.trans (ih hone.bounded (fun e he => ?_) h)
    obtain ⟨htarget, hfits, hdepth⟩ := hsent e (List.mem_cons_of_mem _ he)
    have hreached := hone.reached
    exact ⟨htarget, hfits, by omega⟩

/-- What an instruction sends is no larger than what it was reached with, but for two entries. -/
theorem sent_fits (hs : flow.Bounded locals entry s) {index : Nat} {before after : Frame}
    {i : Instruction} {sent : List (Nat × Frame)} (hbefore : s.frameAt index = some before)
    (hi : flow.instructions[index]? = some i) (hafter : flow.afterFrame index before i = .ok after)
    (hsent : flow.edges index before after i = .ok sent) :
    ∀ e ∈ sent, e.2.Fits locals (flow.dimensions entry) ∧ e.2.stack.length ≤ 2 * s.reached.card := by
  have hfits := hs.fits hbefore
  have hdepth := hs.depth hbefore
  have hstep := afterFrame_step hafter
  have hfits' := hfits.step (dimensions_le entry hi) hstep
  intro e he
  rcases edges_cases hsent e he with heq | ⟨x, -, hmerge⟩
  · have hgrowth := Frame.step_depth hstep
    rw [heq]
    exact ⟨hfits', by omega⟩
  · -- a handler starts with the exception alone
    have hone := Frame.merge_depth (hfits.handler x.caught) (hfits'.handler x.caught) hmerge
    rw [show (before.handler x.caught).stack.length = 1 from rfl] at hone
    exact ⟨(hfits.handler x.caught).merge (hfits'.handler x.caught) hmerge, by omega⟩

/-- **One visit** takes one from what is left for the instruction that is visited, and adds nothing
to the others. -/
theorem visit_left (ht : flow.hierarchy.Topped) (hplaced : flow.Placed) {index : Nat}
    {rest : List Nat} (hs : flow.Bounded locals entry s) (hnext : s.worklist = index :: rest)
    (h : flow.visit { s with worklist := rest } index = .ok s') :
    index < flow.instructions.size ∧ flow.Bounded locals entry s' ∧ flow.Rose s s' ∧
      ∀ k, flow.left locals entry s' k + (if k = index then 1 else 0) ≤
        flow.left locals entry s k := by
  obtain ⟨before, i, after, sent, hbefore, hi, hafter, hsent, hreceive⟩ := visit_cases h
  have hbounded : flow.Bounded locals entry
      (flow.visited { s with worklist := rest } index before after) := ⟨hs.size, hs.fits, hs.depth⟩
  have hspends := receiveAll_spends ht hbounded (fun e he => ?_) hreceive
  · refine ⟨(Array.getElem?_eq_some_iff.mp hi).1, hspends.bounded, hspends.rose, fun k => ?_⟩
    rw [← left_visited hnext]
    exact Nat.add_le_add_right (hspends.left k) _
  · obtain ⟨hfits, hdepth⟩ := sent_fits hs hbefore hi hafter hsent e he
    exact ⟨edges_placed hplaced hsent e he, hfits, hdepth⟩

/-- **A run.** What was visited was left before. -/
theorem Visits.spends (ht : flow.hierarchy.Topped) (hplaced : flow.Placed) {visited : List Nat}
    (hvisits : flow.Visits s visited s') (hs : flow.Bounded locals entry s) :
    flow.Bounded locals entry s' ∧
      ∀ k, visited.count k + flow.left locals entry s' k ≤ flow.left locals entry s k := by
  induction hvisits with
  | nil s => exact ⟨hs, fun k => by rw [List.count_nil, Nat.zero_add]⟩
  | @cons s₁ s₂ s₃ index rest visited hnext hvisit _ ih =>
    obtain ⟨-, hbounded, -, hleft⟩ := visit_left ht hplaced hs hnext hvisit
    obtain ⟨hend, hall⟩ := ih hbounded
    refine ⟨hend, fun k => ?_⟩
    have hone := hleft k
    have hrest := hall k
    rw [List.count_cons]
    simp only [beq_iff_eq, eq_comm (a := index)]
    omega

/-- **Settling.** -/
theorem settles (ht : flow.hierarchy.Topped) (hplaced : flow.Placed)
    (hs : flow.Bounded locals entry s)
    (hleft : ∀ k, flow.left locals entry s k ≤ 1 + flow.frameHeight locals entry) :
    flow.Settles locals entry s := by
  constructor
  · obtain ⟨n, r, hn, hends⟩ := Round.exists_ends flow.round
      (fun s => ∑ k ∈ Finset.range flow.instructions.size, flow.left locals entry s k)
      (fun s s' hs hnext => by
        obtain ⟨index, rest, hnext, hvisit⟩ := round_next hnext
        obtain ⟨hindex, hbounded, -, hleft⟩ := visit_left ht hplaced hs hnext hvisit
        refine ⟨hbounded, Finset.sum_lt_sum (fun k _ => ?_) ⟨index, Finset.mem_range.mpr hindex, ?_⟩⟩
        · exact Nat.le_of_add_right_le (hleft k)
        · have hone := hleft index
          rw [if_pos rfl] at hone
          omega) hs
    have hsum : ∑ k ∈ Finset.range flow.instructions.size, flow.left locals entry s k ≤
        flow.instructions.size * (1 + flow.frameHeight locals entry) := by
      have hle := Finset.sum_le_card_nsmul (Finset.range flow.instructions.size)
        (flow.left locals entry s) (1 + flow.frameHeight locals entry) fun k _ => hleft k
      simpa using hle
    have hfuel : n ≤ flow.visitBound locals entry := by
      rw [visitBound]
      omega
    rw [hends.fueled flow.settle_round hfuel]
    exact ⟨n, hends⟩
  · intro visited s' hvisits index
    have hspent := (hvisits.spends ht hplaced hs).2 index
    have hstart := hleft index
    omega
  · intro visited s₁ s₂ index rest hvisits hnext hvisit
    exact (visit_left ht hplaced (hvisits.spends ht hplaced hs).1 hnext hvisit).2.2.1

end Flow

/-! ## The first state -/

section

variable {h : Hierarchy} {owner : ClassName} {name : MemberName} {d : MethodDescriptor}
  {isStatic : Bool} {c : Code} {positions : LabelPositions} {ranges : List HandlerRange}
  {locals : Nat}

theorem FlowState.frameAt_start_zero {entry : Frame} (hnonempty : 0 < c.instructions.size) :
    (start c entry).frameAt 0 = some entry := by
  simp [frameAt, start, hnonempty]

/-- The analysis begins within the bounds. -/
theorem Flow.start_bounded (flow : Flow) {entry : Frame} (hcode : flow.instructions = c.instructions)
    (hnonempty : 0 < c.instructions.size) (hentry : entry.WellFormed locals)
    (hstack : entry.stack = []) : flow.Bounded locals entry (.start c entry) := by
  have hsize : (FlowState.start c entry).frames.size = c.instructions.size := by
    simp [FlowState.start]
  have hreached : 0 < (FlowState.start c entry).reached.card := by
    apply Finset.card_pos.mpr
    refine ⟨0, FlowState.mem_reached.mpr ⟨hsize ▸ hnonempty, ?_⟩⟩
    rw [FlowState.frameAt_start_zero hnonempty]
    rfl
  constructor
  · rw [hsize, hcode]
  · intro k f hf
    obtain ⟨-, rfl⟩ := FlowState.frameAt_start hf
    exact ⟨hentry, flow.entry_dimensions_le hstack⟩
  · intro k f hf
    obtain ⟨-, rfl⟩ := FlowState.frameAt_start hf
    rw [hstack, List.length_nil]
    omega

/-- To begin with, no more visits are left than the bound says. -/
theorem Flow.start_left {flow : Flow} {entry : Frame}
    (hbounded : flow.Bounded locals entry (.start c entry)) (hnonempty : 0 < c.instructions.size)
    (k : Nat) :
    flow.left locals entry (.start c entry) k ≤ 1 + flow.frameHeight locals entry := by
  have hlist : (FlowState.start c entry).worklist = [0] := rfl
  cases hframe : (FlowState.start c entry).frameAt k with
  | none =>
    have hk : k ≠ 0 := by
      rintro rfl
      rw [FlowState.frameAt_start_zero hnonempty] at hframe
      cases hframe
    rw [left_of_none hframe, hlist, List.count_cons_of_ne hk.symm, List.count_nil]
    exact Nat.le_refl _
  | some f =>
    have hclimb := hbounded.climb_le hframe
    have hcount := List.count_le_length (a := k) (l := [0])
    rw [left_of_frame hframe, hlist]
    simp only [List.length_singleton] at hcount
    omega

/-- **The loop of an analysis.** -/
theorem Flow.ofCode_settles (ht : h.Topped) (hpositions : c.labelPositions = .ok positions)
    (hranges : c.handlerRanges = .ok ranges) (hnonempty : 0 < c.instructions.size)
    (hlocals : (Frame.arguments owner name d isStatic).length ≤ locals) :
    (Flow.ofCode h owner d c positions ranges).Settles locals
      (.entry owner name d isStatic locals) (.start c (.entry owner name d isStatic locals)) := by
  have hbounded := Flow.start_bounded (.ofCode h owner d c positions ranges) rfl hnonempty
    (Frame.entry_wellFormed hlocals) rfl
  exact Flow.settles ht (Flow.ofCode_placed hpositions hranges) hbounded
    (Flow.start_left hbounded hnonempty)

/-- The analysis never gives up, if nothing is above the root. -/
theorem analyzeCode_settled (ht : h.Topped) :
    FailsOnly (· ≠ .unanalyzable .unsettled) (analyzeCode h owner name d isStatic c) := by
  have hlabel : ∀ {α : Type} (x : Except LabelError α),
      FailsOnly (· ≠ .unanalyzable .unsettled) (liftError CodeError.ofLabel x) := by
    intro α x
    refine FailsOnly.lift (P := fun _ => True) (fun _ _ => trivial) fun e _ => ?_
    cases e <;> simp [CodeError.ofLabel]
  rw [analyzeCode]
  refine .guarded (by simp) fun hnonempty => ?_
  refine (hlabel _).bind fun positions hpositions => ?_
  refine (hlabel _).bind fun ranges hranges => ?_
  refine .guarded (by simp) fun _ => ?_
  refine FailsOnly.bind ?_ fun settled _ => .guarded (by simp) fun _ => .ok _
  have hargs : (Frame.arguments owner name d isStatic).length ≤
      c.instructions.foldl (fun n i => max n i.localExtent)
        (max c.maxLocals (d.parameterWords !isStatic)) := by
    rw [Frame.arguments_length, ← Array.foldl_toList]
    exact Nat.le_trans (Nat.le_max_right ..) (le_foldl_max ..)
  have hpos : 0 < c.instructions.size := Nat.pos_of_ne_zero (by simpa using hnonempty)
  obtain ⟨n, hends⟩ := (Flow.ofCode_settles (h := h) ht (liftError_ok hpositions)
    (liftError_ok hranges) hpos hargs).ends
  rintro e he rfl
  rw [he] at hends
  obtain ⟨s, -, hlast⟩ := hends.last (P := fun _ => True) (fun _ _ _ _ => trivial) trivial
  exact Flow.round_settled hlast

/-- **Every analysis ends**, with a result or with an error. No frame rises for ever; the walks up
the hierarchy end; and from the frame on entry on, the loop ends. What bounds these is what fuel the
definitions have, so they never give up. -/
theorem analyzeCode_ends (hg : h.Grounded) (owner : ClassName) (name : MemberName)
    (d : MethodDescriptor) (isStatic : Bool) (c : Code) :
    (WellFounded fun g f => Frame.Rises h f g) ∧
      (∀ sub super, ∃ n, (h.searchRound super).Ends ([sub], [sub]) n (h.isSubclass sub super)) ∧
      (∀ b a info, h.lookup a = some info →
        ∃ n, (h.climbRound b).Ends info n (h.firstSuperOf b (h.types.length + 1) info)) ∧
      (∀ positions ranges locals, c.labelPositions = .ok positions → c.handlerRanges = .ok ranges →
        0 < c.instructions.size → (Frame.arguments owner name d isStatic).length ≤ locals →
        (Flow.ofCode h owner d c positions ranges).Settles locals
          (.entry owner name d isStatic locals)
          (.start c (.entry owner name d isStatic locals))) ∧
      analyzeCode h owner name d isStatic c ≠ .error (.unanalyzable .unsettled) := by
  refine ⟨Frame.wellFounded_rises hg.top, h.search_ends, ?_, ?_, ?_⟩
  · intro b a info hinfo
    exact hg.climb_ends b hinfo
  · intro positions ranges locals hpositions hranges hnonempty hlocals
    exact Flow.ofCode_settles hg.top hpositions hranges hnonempty hlocals
  · intro hfails
    exact analyzeCode_settled hg.top _ hfails rfl

end

namespace Shapes

/-- The hierarchy of the sample has a root. -/
theorem grounded : hierarchy.Grounded where
  acyclic := orderly.acyclic
  top _ hc := absurd (super_lower hc) (Nat.not_lt_zero _)

/-- The body in the form in which it is analyzed. -/
def flow : Flow := .ofCode hierarchy shape descriptor choose [(⟨0⟩, 4)] []

/-- The frame that the sample begins with. -/
def entry : Frame := .entry shape .run descriptor true 3

end Shapes

/-- With four classes and no arrays a slot can change seven times; the place where two branches meet
has three locals, and the stack sixteen entries at most. -/
theorem analyzeCode_ends_shapes : Shapes.hierarchy.Grounded ∧
    analyzeCode Shapes.hierarchy Shapes.shape .run Shapes.descriptor true Shapes.choose ≠
      .error (.unanalyzable .unsettled) ∧
    ∀ visited s, Shapes.flow.Visits (.start Shapes.choose Shapes.entry) visited s →
      visited.count 4 ≤ 1 + (3 + 16) * 7 := by
  obtain ⟨-, -, -, hsettles, hnever⟩ := analyzeCode_ends Shapes.grounded Shapes.shape .run
    Shapes.descriptor true Shapes.choose
  have hsettles : Shapes.flow.Settles 3 Shapes.entry (.start Shapes.choose Shapes.entry) :=
    hsettles [(⟨0⟩, 4)] [] 3 (by decide +kernel) (by decide +kernel) (by decide) (by decide)
  have hheight : Shapes.flow.frameHeight 3 Shapes.entry = (3 + 16) * 7 := by decide +kernel
  refine ⟨Shapes.grounded, hnever, fun visited s hvisits => ?_⟩
  rw [← hheight]
  exact hsettles.finite hvisits 4

end Resumption
