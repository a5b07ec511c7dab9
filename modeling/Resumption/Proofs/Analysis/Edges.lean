import Resumption.Proofs.Analysis.Settling
import Resumption.Proofs.Frame.Order

/-!
# Edges of a body

A label has the position at which it stands in the code, and no other (`Code.find_iff`), and a handler
covers what stands between its labels (`Code.resolve_ok`).

`Code.Edge` says where control can go, in terms of the labels that stand in the code: to the next
instruction, to the target of a jump, or to a handler that covers the instruction. `Frame.along` is
the frame that goes along an edge. The analysis of a body sends exactly these frames
(`Analyzed.mem_sent`, `Analyzed.sent_of_edge`).
-/

namespace Resumption

/-! ## Positions of labels -/

/-- Only a label is placed. -/
theorem Instruction.placed?_eq_some {i : Instruction} {l : Label} :
    i.placed? = some l ↔ i = .label l := by
  cases i with
  | label k => simp [placed?]
  | _ => exact ⟨nofun, nofun⟩

namespace Code

/-- Labels that were placed stay where they are, and every further one is where it stands. -/
theorem placeLabels_lookup {is : List Instruction} {index : Nat} {placed positions : LabelPositions}
    (h : placeLabels index placed is = .ok positions) (l : Label) (q : Nat) :
    positions.lookup l = some q ↔
      placed.lookup l = some q ∨ ∃ k, is[k]? = some (.label l) ∧ q = index + k := by
  induction is generalizing index placed with
  | nil =>
    cases h
    simp
  | cons i rest ih =>
    -- the labels of the rest are one place further on
    have hshift : (∃ k, (i :: rest)[k]? = some (.label l) ∧ q = index + k) ↔
        (i = .label l ∧ q = index) ∨ ∃ k, rest[k]? = some (.label l) ∧ q = index + 1 + k := by
      constructor
      · rintro ⟨k, hk, rfl⟩
        cases k with
        | zero => exact .inl ⟨Option.some.inj hk, rfl⟩
        | succ k => exact .inr ⟨k, hk, by omega⟩
      · rintro (⟨rfl, rfl⟩ | ⟨k, hk, rfl⟩)
        · exact ⟨0, rfl, rfl⟩
        · exact ⟨k + 1, hk, by omega⟩
    rw [hshift]
    simp only [placeLabels] at h
    split at h
    · rename_i hnone
      have hne : i ≠ .label l := by
        rintro rfl
        cases hnone
      rw [ih h]
      simp [hne]
    · rename_i l' hl'
      obtain rfl := Instruction.placed?_eq_some.mp hl'
      split at h
      · cases h
      · rename_i hfresh
        rw [ih h, List.lookup_cons]
        by_cases hl : l = l'
        · subst hl
          have hnone : placed.lookup l = none := by
            rw [List.lookup_eq_none_iff]
            intro p hp
            simp only [Bool.not_eq_true, List.any_eq_false, beq_iff_eq] at hfresh
            simpa using fun heq => hfresh p hp heq.symm
          simp [hnone, eq_comm]
        · have hne : ¬ l' = l := fun heq => hl heq.symm
          have hbeq : (l == l') = false := beq_eq_false_iff_ne.mpr hl
          simp [hbeq, hne]

/-- **Labels.** A label is found exactly where it stands. -/
theorem find_iff {c : Code} {positions : LabelPositions} (h : c.labelPositions = .ok positions)
    {l : Label} {k : Nat} : positions.find l = .ok k ↔ c.instructions[k]? = some (.label l) := by
  have hlookup := placeLabels_lookup h l k
  simp only [List.lookup_nil, reduceCtorEq, Nat.zero_add, false_or, exists_eq_right'] at hlookup
  rw [← Array.getElem?_toList, ← hlookup, LabelPositions.find]
  cases positions.lookup l with
  | none => exact ⟨nofun, nofun⟩
  | some q => simp

variable {positions : LabelPositions}

/-- The range of a handler is where its labels are. -/
theorem resolve_ok {x : Handler} {range : HandlerRange} :
    resolve positions x = .ok range ↔ positions.find x.start = .ok range.start ∧
      positions.find x.stop = .ok range.stop ∧ positions.find x.entry = .ok range.entry := by
  simp only [resolve, Except.bind_ok]
  constructor
  · rintro ⟨start, hstart, stop, hstop, entry, hentry, heq⟩
    cases heq
    exact ⟨hstart, hstop, hentry⟩
  · rintro ⟨hstart, hstop, hentry⟩
    exact ⟨_, hstart, _, hstop, _, hentry, rfl⟩

/-- Ranges are found if the handlers resolve to them one by one. -/
theorem handlerRanges_ok {c : Code} {ranges : List HandlerRange}
    (hpositions : c.labelPositions = .ok positions) : c.handlerRanges = .ok ranges ↔
      List.Forall₂ (fun x range => resolve positions x = .ok range) c.handlers ranges := by
  rw [handlerRanges, hpositions]
  exact mapM_ok_iff

end Code

/-! ## Edges -/

/-- Can control go from one instruction to another? An edge to a handler comes with the handler. -/
inductive Code.Edge (c : Code) (index : Nat) : Option Handler → Nat → Prop
  /-- on to the next instruction -/
  | next {i : Instruction} (hi : c.instructions[index]? = some i) (hfalls : i.fallsThrough = true) :
    Edge c index none (index + 1)
  /-- to a target -/
  | jump {i : Instruction} {l : Label} {target : Nat} (hi : c.instructions[index]? = some i)
    (hl : l ∈ i.targets) (htarget : c.instructions[target]? = some (.label l)) :
    Edge c index none target
  /-- to a handler that covers the instruction -/
  | handler {x : Handler} {start stop entry : Nat} (hx : x ∈ c.handlers)
    (hstart : c.instructions[start]? = some (.label x.start))
    (hstop : c.instructions[stop]? = some (.label x.stop))
    (hentry : c.instructions[entry]? = some (.label x.entry))
    (hcovers : start ≤ index ∧ index < stop) : Edge c index (some x) entry

/-- Does a chain of edges lead from the first instruction to this one? -/
def Code.Reachable (c : Code) : Nat → Prop :=
  Relation.ReflTransGen (fun index target => ∃ via, c.Edge index via target) 0

/-- The frame that goes along an edge: the one after the instruction, or, to a handler, one that
describes the locals both before and after it. -/
def Frame.along (h : Hierarchy) (before after : Frame) : Option Handler → Except MergeError Frame
  | none => .ok after
  | some x => merge h (before.handler x.caught) (after.handler x.caught)

/-- Members of a list beside their partners. -/
theorem mem_zip_of_forall₂ {α β : Type} {R : α → β → Prop} {xs : List α} {ys : List β}
    (h : List.Forall₂ R xs ys) :
    (∀ x ∈ xs, ∃ y, (y, x) ∈ ys.zip xs ∧ R x y) ∧ ∀ p ∈ ys.zip xs, p.2 ∈ xs ∧ R p.2 p.1 := by
  induction h with
  | nil => exact ⟨nofun, nofun⟩
  | @cons x y xs ys hfirst _ ih =>
    refine ⟨fun z hz => ?_, fun p hp => ?_⟩
    · rcases List.mem_cons.mp hz with rfl | hz
      · exact ⟨y, List.mem_cons_self .., hfirst⟩
      · obtain ⟨w, hw, hR⟩ := ih.1 z hz
        exact ⟨w, List.mem_cons_of_mem _ hw, hR⟩
    · rcases List.mem_cons.mp hp with rfl | hp
      · exact ⟨List.mem_cons_self .., hfirst⟩
      · exact ⟨List.mem_cons_of_mem _ (ih.2 p hp).1, (ih.2 p hp).2⟩

/-- Members of either list have partners in the other. -/
theorem mem_of_forall₂ {α β : Type} {R : α → β → Prop} {xs : List α} {ys : List β}
    (h : List.Forall₂ R xs ys) : (∀ x ∈ xs, ∃ y ∈ ys, R x y) ∧ ∀ y ∈ ys, ∃ x ∈ xs, R x y := by
  induction h with
  | nil => exact ⟨nofun, nofun⟩
  | cons hfirst _ ih =>
    refine ⟨List.forall_mem_cons.mpr ⟨⟨_, List.mem_cons_self .., hfirst⟩, fun x hx => ?_⟩,
      List.forall_mem_cons.mpr ⟨⟨_, List.mem_cons_self .., hfirst⟩, fun y hy => ?_⟩⟩
    · obtain ⟨y, hy, hR⟩ := ih.1 x hx
      exact ⟨y, List.mem_cons_of_mem _ hy, hR⟩
    · obtain ⟨x, hx, hR⟩ := ih.2 y hy
      exact ⟨x, List.mem_cons_of_mem _ hx, hR⟩

namespace Flow

variable {flow : Flow} {index : Nat} {before after : Frame} {i : Instruction}
  {sent : List (Nat × Frame)}

/-- What an instruction sends: to handlers, to jump targets, and to the next instruction. -/
theorem edges_inv (hsent : flow.edges index before after i = .ok sent) :
    ∃ toHandlers toTargets,
      List.Forall₂ (fun x e => flow.handlerEdge before after x = .ok e)
        (flow.handlers.filter (·.range.covers index)) toHandlers ∧
      List.Forall₂ (fun l e => flow.jumpEdge after l = .ok e) i.targets toTargets ∧
      ((i.fallsThrough = true ∧ index + 1 < flow.instructions.size ∧
          sent = toHandlers ++ toTargets ++ [(index + 1, after)]) ∨
        (i.fallsThrough = false ∧ sent = toHandlers ++ toTargets)) := by
  obtain ⟨toHandlers, hhandlers, hsent⟩ := Except.bind_ok.mp hsent
  obtain ⟨toTargets, htargets, hsent⟩ := Except.bind_ok.mp hsent
  refine ⟨toHandlers, toTargets, mapM_ok_iff.mp hhandlers, mapM_ok_iff.mp htargets, ?_⟩
  split at hsent
  · split at hsent
    · cases hsent
      exact .inl ⟨‹_›, ‹_›, rfl⟩
    · cases hsent
  · cases hsent
    exact .inr ⟨by simpa using ‹¬ i.fallsThrough = true›, rfl⟩

theorem liftError_ok_iff {ε δ α : Type} {f : ε → δ} {x : Except ε α} {y : α} :
    liftError f x = .ok y ↔ x = .ok y :=
  ⟨liftError_ok, fun h => by rw [h]; rfl⟩

/-- A handler is sent what the frames before and after the instruction have in common. -/
theorem handlerEdge_ok {x : ActiveHandler} {e : Nat × Frame} :
    flow.handlerEdge before after x = .ok e ↔ e.1 = x.range.entry ∧
      Frame.merge flow.hierarchy (before.handler x.caught) (after.handler x.caught) = .ok e.2 := by
  simp only [handlerEdge, Except.bind_ok, liftError_ok_iff]
  constructor
  · rintro ⟨merged, hmerged, heq⟩
    cases heq
    exact ⟨rfl, hmerged⟩
  · rintro ⟨hentry, hmerged⟩
    exact ⟨e.2, hmerged, by rw [← hentry]; rfl⟩

/-- A target is sent the frame after the instruction. -/
theorem jumpEdge_ok {l : Label} {e : Nat × Frame} :
    flow.jumpEdge after l = .ok e ↔ flow.positions.find l = .ok e.1 ∧ e.2 = after := by
  simp only [jumpEdge, Except.bind_ok, liftError_ok_iff]
  constructor
  · rintro ⟨position, hposition, heq⟩
    cases heq
    exact ⟨hposition, rfl⟩
  · rintro ⟨hposition, heq⟩
    exact ⟨e.1, hposition, by rw [← heq]; rfl⟩

/-- An instruction that sends frames finds its targets. -/
theorem target_found (hsent : flow.edges index before after i = .ok sent) {l : Label}
    (hl : l ∈ i.targets) : ∃ target, flow.positions.find l = .ok target := by
  obtain ⟨-, toTargets, -, htargets, -⟩ := edges_inv hsent
  obtain ⟨e, -, hedge⟩ := (mem_of_forall₂ htargets).1 l hl
  exact ⟨e.1, (jumpEdge_ok.mp hedge).1⟩

/-- Where instructions send frames there are instructions. -/
structure Placed (flow : Flow) : Prop where
  /-- labels lead to instructions -/
  labels : ∀ {l k}, flow.positions.find l = .ok k → k < flow.instructions.size
  /-- handlers begin at instructions -/
  handlers : ∀ x ∈ flow.handlers, x.range.entry < flow.instructions.size

/-- Frames are sent to instructions only. -/
theorem edges_placed (hplaced : flow.Placed) {index : Nat} {before after : Frame} {i : Instruction}
    {sent : List (Nat × Frame)} (h : flow.edges index before after i = .ok sent) :
    ∀ e ∈ sent, e.1 < flow.instructions.size := by
  obtain ⟨toHandlers, toTargets, hhandlers, htargets, hlast⟩ := edges_inv h
  have hearlier : ∀ e ∈ toHandlers ++ toTargets, e.1 < flow.instructions.size := by
    intro e he
    rcases List.mem_append.mp he with he | he
    · obtain ⟨x, hx, hedge⟩ := (mem_of_forall₂ hhandlers).2 e he
      rw [(handlerEdge_ok.mp hedge).1]
      exact hplaced.handlers x (List.mem_filter.mp hx).1
    · obtain ⟨l, -, hedge⟩ := (mem_of_forall₂ htargets).2 e he
      exact hplaced.labels (jumpEdge_ok.mp hedge).1
  rcases hlast with ⟨-, hsize, rfl⟩ | ⟨-, rfl⟩
  · intro e he
    rcases List.mem_append.mp he with he | he
    · exact hearlier e he
    · obtain rfl := List.mem_singleton.mp he
      exact hsize
  · exact hearlier

/-- In a body with its labels placed once, all targets are there. -/
theorem ofCode_placed {h : Hierarchy} {owner : ClassName} {d : MethodDescriptor} {c : Code}
    {positions : LabelPositions} {ranges : List HandlerRange}
    (hpositions : c.labelPositions = .ok positions) (hranges : c.handlerRanges = .ok ranges) :
    (Flow.ofCode h owner d c positions ranges).Placed := by
  have hplace : ∀ {l k}, positions.find l = .ok k → k < c.instructions.size := by
    intro l k hk
    exact (Array.getElem?_eq_some_iff.mp ((Code.find_iff hpositions).mp hk)).1
  refine ⟨hplace, fun x hx => ?_⟩
  obtain ⟨⟨range, y⟩, hzip, rfl⟩ := List.mem_map.mp hx
  obtain ⟨-, hresolve⟩ :=
    (mem_zip_of_forall₂ ((Code.handlerRanges_ok hpositions).mp hranges)).2 _ hzip
  exact hplace (Code.resolve_ok.mp hresolve).2.2

end Flow

namespace Analyzed

variable {h : Hierarchy} {owner : ClassName} {name : MemberName} {d : MethodDescriptor}
  {isStatic : Bool} {c : Code} {a : Analysis} (analyzed : Analyzed h owner name d isStatic c a)

/-- The body in the form in which it was analyzed. -/
def flow : Flow := .ofCode h owner d c analyzed.positions analyzed.ranges

@[simp] theorem flow_instructions : analyzed.flow.instructions = c.instructions := rfl

@[simp] theorem flow_context : analyzed.flow.context = ⟨owner, d.result⟩ := rfl

@[simp] theorem flow_hierarchy : analyzed.flow.hierarchy = h := rfl

/-- Labels are found where they stand. -/
theorem find_iff {l : Label} {k : Nat} :
    analyzed.positions.find l = .ok k ↔ c.instructions[k]? = some (.label l) :=
  Code.find_iff analyzed.positions_eq

/-- The ranges are those of the handlers. -/
theorem ranges_resolve :
    List.Forall₂ (fun x range => Code.resolve analyzed.positions x = .ok range) c.handlers
      analyzed.ranges :=
  (Code.handlerRanges_ok analyzed.positions_eq).mp analyzed.ranges_eq

/-- The handlers of the flow are those of the body, with their labels where they stand. -/
theorem mem_handlers {x : ActiveHandler} (hx : x ∈ analyzed.flow.handlers) :
    ∃ y ∈ c.handlers, x.caught = y.caught ∧ c.instructions[x.range.start]? = some (.label y.start) ∧
      c.instructions[x.range.stop]? = some (.label y.stop) ∧
      c.instructions[x.range.entry]? = some (.label y.entry) := by
  obtain ⟨⟨range, y⟩, hzip, rfl⟩ := List.mem_map.mp hx
  obtain ⟨hy, hresolve⟩ := (mem_zip_of_forall₂ analyzed.ranges_resolve).2 _ hzip
  obtain ⟨hstart, hstop, hentry⟩ := Code.resolve_ok.mp hresolve
  exact ⟨y, hy, rfl, analyzed.find_iff.mp hstart, analyzed.find_iff.mp hstop,
    analyzed.find_iff.mp hentry⟩

/-- A handler is in force between its labels. -/
theorem handlers_of_mem {y : Handler} (hy : y ∈ c.handlers) {start stop entry : Nat}
    (hstart : c.instructions[start]? = some (.label y.start))
    (hstop : c.instructions[stop]? = some (.label y.stop))
    (hentry : c.instructions[entry]? = some (.label y.entry)) :
    (⟨⟨start, stop, entry⟩, y.caught⟩ : ActiveHandler) ∈ analyzed.flow.handlers := by
  obtain ⟨range, hzip, hresolve⟩ := (mem_zip_of_forall₂ analyzed.ranges_resolve).1 y hy
  have hrange : Code.resolve analyzed.positions y = .ok ⟨start, stop, entry⟩ :=
    Code.resolve_ok.mpr ⟨analyzed.find_iff.mpr hstart, analyzed.find_iff.mpr hstop,
      analyzed.find_iff.mpr hentry⟩
  rw [hresolve] at hrange
  cases hrange
  exact List.mem_map.mpr ⟨_, hzip, rfl⟩

variable {index : Nat} {before after : Frame} {i : Instruction} {sent : List (Nat × Frame)}

/-- What is sent goes along an edge, to an instruction that is there. -/
theorem mem_sent (hi : c.instructions[index]? = some i)
    (hsent : analyzed.flow.edges index before after i = .ok sent) {e : Nat × Frame} (he : e ∈ sent) :
    e.1 < c.instructions.size ∧
      ∃ via, c.Edge index via e.1 ∧ Frame.along h before after via = .ok e.2 := by
  obtain ⟨toHandlers, toTargets, hhandlers, htargets, hlast⟩ := Flow.edges_inv hsent
  have hearlier : e ∈ toHandlers ++ toTargets → e.1 < c.instructions.size ∧
      ∃ via, c.Edge index via e.1 ∧ Frame.along h before after via = .ok e.2 := by
    intro he
    rcases List.mem_append.mp he with he | he
    · obtain ⟨x, hx, hedge⟩ := (mem_of_forall₂ hhandlers).2 e he
      obtain ⟨hx, hcovers⟩ := List.mem_filter.mp hx
      obtain ⟨hentry, hmerged⟩ := Flow.handlerEdge_ok.mp hedge
      obtain ⟨y, hy, hcaught, hstart, hstop, hplace⟩ := analyzed.mem_handlers hx
      rw [← hentry] at hplace
      rw [hcaught] at hmerged
      simp only [HandlerRange.covers, Bool.and_eq_true, decide_eq_true_eq] at hcovers
      exact ⟨(Array.getElem?_eq_some_iff.mp hplace).1, some y,
        .handler hy hstart hstop hplace hcovers, hmerged⟩
    · obtain ⟨l, hl, hedge⟩ := (mem_of_forall₂ htargets).2 e he
      obtain ⟨hfind, hframe⟩ := Flow.jumpEdge_ok.mp hedge
      have hplace := analyzed.find_iff.mp hfind
      exact ⟨(Array.getElem?_eq_some_iff.mp hplace).1, none, .jump hi hl hplace,
        by rw [hframe]; rfl⟩
  rcases hlast with ⟨hfalls, hsize, rfl⟩ | ⟨-, rfl⟩
  · rcases List.mem_append.mp he with he | he
    · exact hearlier he
    · obtain rfl := List.mem_singleton.mp he
      exact ⟨hsize, none, .next hi hfalls, rfl⟩
  · exact hearlier he

/-- Along every edge something is sent. -/
theorem sent_of_edge (hi : c.instructions[index]? = some i)
    (hsent : analyzed.flow.edges index before after i = .ok sent) {via : Option Handler}
    {target : Nat} (hedge : c.Edge index via target) :
    ∃ g, Frame.along h before after via = .ok g ∧ (target, g) ∈ sent := by
  obtain ⟨toHandlers, toTargets, hhandlers, htargets, hlast⟩ := Flow.edges_inv hsent
  have hearlier : ∀ e ∈ toHandlers ++ toTargets, e ∈ sent := by
    intro e he
    rcases hlast with ⟨-, -, rfl⟩ | ⟨-, rfl⟩
    · exact List.mem_append_left _ he
    · exact he
  cases hedge with
  | @next j hj hfalls =>
    obtain rfl : i = j := Option.some.inj (hi.symm.trans hj)
    rcases hlast with ⟨-, -, rfl⟩ | ⟨hnot, -⟩
    · exact ⟨after, rfl, List.mem_append_right _ (List.mem_cons_self ..)⟩
    · rw [hfalls] at hnot
      cases hnot
  | @jump j l target hj hl htarget =>
    obtain rfl : i = j := Option.some.inj (hi.symm.trans hj)
    obtain ⟨e, he, hedge⟩ := (mem_of_forall₂ htargets).1 l hl
    obtain ⟨hfind, hframe⟩ := Flow.jumpEdge_ok.mp hedge
    have hsame : target = e.1 := by
      have := (analyzed.find_iff.mpr htarget).symm.trans hfind
      exact Except.ok.inj this
    refine ⟨after, rfl, hearlier _ (List.mem_append_right _ ?_)⟩
    rw [hsame, ← hframe]
    exact he
  | @handler x start stop entry hx hstart hstop hentry hcovers =>
    have hactive : (⟨⟨start, stop, target⟩, x.caught⟩ : ActiveHandler) ∈
        analyzed.flow.handlers.filter (·.range.covers index) :=
      List.mem_filter.mpr ⟨analyzed.handlers_of_mem hx hstart hstop hentry,
        by simpa [HandlerRange.covers] using hcovers⟩
    obtain ⟨e, he, hedge⟩ := (mem_of_forall₂ hhandlers).1 _ hactive
    obtain ⟨hplace, hmerged⟩ := Flow.handlerEdge_ok.mp hedge
    have hsame : target = e.1 := hplace.symm
    refine ⟨e.2, hmerged, hearlier _ (List.mem_append_left _ ?_)⟩
    rw [hsame]
    exact he

end Analyzed

end Resumption
