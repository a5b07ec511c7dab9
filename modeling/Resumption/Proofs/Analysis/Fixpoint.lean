import Resumption.Proofs.Analysis.Edges
import Resumption.Proofs.Frame.Entries

/-!
# The analysis is a fixpoint

Once nothing is left to visit, every frame that an instruction sends is below the frame at its
target. This holds for every order of frames in which merging gives upper bounds (`Ascending`):

* receiving a frame only moves frames up, and puts an instruction whose frame changed on the worklist
  (`Grows`, `receive_grows`);
* so an instruction that is not on the worklist has sent what its frame gives, and what it sent is
  still below the frames there (`Settled`, `visit_settled`).

In an orderly hierarchy merging also absorbs what is below, so the frames are a fixpoint in the
strict sense, and the instructions with a frame are those that control can reach
(`analyzeCode_fixpoint`).
-/

namespace Resumption

namespace FlowState

/-- Is a frame below the one at its target? -/
def Holds (s : FlowState) (Le : Frame → Frame → Prop) (e : Nat × Frame) : Prop :=
  ∃ g, s.frameAt e.1 = some g ∧ Le e.2 g

/-- Frames only move up, and where a frame is new its instruction is to be visited. -/
structure Grows (Le : Frame → Frame → Prop) (s s' : FlowState) : Prop where
  /-- no instruction comes or goes -/
  size : s'.frames.size = s.frames.size
  /-- what was to be visited still is -/
  worklist : ∀ index ∈ s.worklist, index ∈ s'.worklist
  /-- frames only rise -/
  up : ∀ {index f}, s.frameAt index = some f → s'.Holds Le (index, f)
  /-- what has changed is to be visited -/
  changed : ∀ {index f}, s'.frameAt index = some f → index ∈ s'.worklist ∨ s.frameAt index = some f

variable {Le : Frame → Frame → Prop} {s s' s'' : FlowState}

theorem Grows.refl (hrefl : ∀ f, Le f f) (s : FlowState) : Grows Le s s :=
  ⟨rfl, fun _ h => h, fun hf => ⟨_, hf, hrefl _⟩, .inr⟩

/-- What holds of a state holds of what it grows to. -/
theorem Holds.grows (htrans : ∀ f g k, Le f g → Le g k → Le f k) {e : Nat × Frame}
    (h : s.Holds Le e) (hgrows : Grows Le s s') : s'.Holds Le e := by
  obtain ⟨g, hg, hle⟩ := h
  obtain ⟨g', hg', hle'⟩ := hgrows.up hg
  exact ⟨g', hg', htrans _ _ _ hle hle'⟩

theorem Grows.trans (htrans : ∀ f g k, Le f g → Le g k → Le f k) (h : Grows Le s s')
    (h' : Grows Le s' s'') : Grows Le s s'' where
  size := h'.size.trans h.size
  worklist index hin := h'.worklist index (h.worklist index hin)
  up hf := (h.up hf).grows htrans h'
  changed hf := by
    rcases h'.changed hf with hin | hf
    · exact .inl hin
    · exact (h.changed hf).imp_left (h'.worklist _)

/-- A frame that goes up is put in its place. -/
theorem enqueue_grows (hrefl : ∀ f, Le f f) {target : Nat} {f : Frame}
    (hup : ∀ g, s.frameAt target = some g → Le g f) (hsize : target < s.frames.size) :
    Grows Le s (s.enqueue target f) ∧ (s.enqueue target f).frameAt target = some f := by
  have hself : (s.enqueue target f).frameAt target = some f := by
    simp only [frameAt, enqueue, getD_set!, hsize, and_self, if_true]
  obtain ⟨htarget, hothers⟩ := s.mem_enqueue target f
  refine ⟨⟨?_, hothers, fun {index g} hg => ?_, fun {index g} hg => ?_⟩, hself⟩
  · simp [enqueue]
  · by_cases hindex : target = index
    · subst hindex
      exact ⟨f, hself, hup g hg⟩
    · refine ⟨g, ?_, hrefl g⟩
      simp only [frameAt, enqueue, getD_set!, hindex, false_and, if_false]
      exact hg
  · rcases frameAt_enqueue hg with ⟨rfl, -⟩ | hg
    · exact .inl htarget
    · exact .inr hg

end FlowState

namespace Flow

/-- An order of frames along which an analysis climbs. `Good` is what is true of all frames. -/
structure Ascending (flow : Flow) (Good : Nat → Frame → Prop) (Le : Frame → Frame → Prop) :
    Prop where
  /-- a frame is below itself -/
  refl : ∀ f, Le f f
  /-- below is transitive -/
  trans : ∀ f g k, Le f g → Le g k → Le f k
  /-- what an instruction sends is good, and there is an instruction at its target -/
  sends : ∀ {index before i after sent}, flow.instructions[index]? = some i → Good index before →
    flow.afterFrame index before i = .ok after → flow.edges index before after i = .ok sent →
    ∀ e ∈ sent, Good e.1 e.2 ∧ e.1 < flow.instructions.size
  /-- merging gives upper bounds -/
  merge : ∀ {index a b m}, Good index a → Good index b →
    Frame.merge flow.hierarchy a b = .ok m → Good index m ∧ Le a m ∧ Le b m

/-- The instruction has sent what the frame gives, and it was not lost. -/
def Sent (flow : Flow) (Le : Frame → Frame → Prop) (s : FlowState) (index : Nat) (before : Frame) :
    Prop :=
  ∃ i after sent, flow.instructions[index]? = some i ∧ flow.afterFrame index before i = .ok after ∧
    flow.edges index before after i = .ok sent ∧ ∀ e ∈ sent, s.Holds Le e

/-- What stays true while instructions are visited. -/
structure Settled (flow : Flow) (Good : Nat → Frame → Prop) (Le : Frame → Frame → Prop)
    (s : FlowState) : Prop where
  /-- there is a place for every instruction -/
  size : s.frames.size = flow.instructions.size
  /-- all frames are good -/
  good : ∀ {index f}, s.frameAt index = some f → Good index f
  /-- what is not to be visited any more has been sent on -/
  sent : ∀ {index f}, s.frameAt index = some f → index ∈ s.worklist ∨ flow.Sent Le s index f

variable {flow : Flow} {Good : Nat → Frame → Prop} {Le : Frame → Frame → Prop} {s s' : FlowState}

/-- Receiving a good frame. -/
theorem receive_grows (ha : flow.Ascending Good Le) {target : Nat} {incoming : Frame}
    (hgood : ∀ {index f}, s.frameAt index = some f → Good index f) (hincoming : Good target incoming)
    (hsize : target < s.frames.size) (h : flow.receive s (target, incoming) = .ok s') :
    FlowState.Grows Le s s' ∧ s'.Holds Le (target, incoming) ∧
      ∀ {index f}, s'.frameAt index = some f → Good index f := by
  rcases receive_cases h with ⟨rfl, existing, hexisting, hmerge⟩ | ⟨hnone, rfl⟩ |
    ⟨existing, merged, hexisting, hmerge, -, rfl⟩
  · obtain ⟨-, -, hle⟩ := ha.merge (hgood hexisting) hincoming hmerge
    exact ⟨.refl ha.refl s', ⟨existing, hexisting, hle⟩, hgood⟩
  · obtain ⟨hgrows, hself⟩ := FlowState.enqueue_grows (f := incoming) ha.refl
      (fun g hg => by rw [hnone] at hg; cases hg) hsize
    refine ⟨hgrows, ⟨incoming, hself, ha.refl incoming⟩, fun {index f} hf => ?_⟩
    rcases FlowState.frameAt_enqueue hf with ⟨rfl, rfl⟩ | hf
    · exact hincoming
    · exact hgood hf
  · obtain ⟨hmerged, hup, hle⟩ := ha.merge (hgood hexisting) hincoming hmerge
    obtain ⟨hgrows, hself⟩ := FlowState.enqueue_grows (f := merged) ha.refl (fun g hg => by
      rw [hexisting] at hg
      cases hg
      exact hup) hsize
    refine ⟨hgrows, ⟨merged, hself, hle⟩, fun {index f} hf => ?_⟩
    rcases FlowState.frameAt_enqueue hf with ⟨rfl, rfl⟩ | hf
    · exact hmerged
    · exact hgood hf

/-- Receiving all that an instruction sends. -/
theorem receiveAll_grows (ha : flow.Ascending Good Le) {sent : List (Nat × Frame)}
    (hgood : ∀ {index f}, s.frameAt index = some f → Good index f)
    (hsent : ∀ e ∈ sent, Good e.1 e.2 ∧ e.1 < s.frames.size)
    (h : sent.foldlM flow.receive s = .ok s') :
    FlowState.Grows Le s s' ∧ (∀ e ∈ sent, s'.Holds Le e) ∧
      ∀ {index f}, s'.frameAt index = some f → Good index f := by
  induction sent generalizing s with
  | nil =>
    cases h
    exact ⟨.refl ha.refl s', nofun, hgood⟩
  | cons e sent ih =>
    rw [List.foldlM_cons] at h
    obtain ⟨s₁, hfirst, h⟩ := Except.bind_ok.mp h
    obtain ⟨he, hsize⟩ := hsent e (List.mem_cons_self ..)
    obtain ⟨hgrows, hholds, hgood₁⟩ := receive_grows ha hgood he hsize hfirst
    obtain ⟨hgrows', hholds', hgood'⟩ := ih hgood₁
      (fun e he => hgrows.size ▸ hsent e (List.mem_cons_of_mem _ he)) h
    exact ⟨hgrows.trans ha.trans hgrows',
      List.forall_mem_cons.mpr ⟨hholds.grows ha.trans hgrows', hholds'⟩, hgood'⟩

/-- **One visit.** The visited instruction leaves the worklist and has sent what its frame gives;
the others did so before, unless their frames changed. -/
theorem visit_settled (ha : flow.Ascending Good Le) {index : Nat} {rest : List Nat}
    (hnext : s.worklist = index :: rest) (hs : flow.Settled Good Le s)
    (h : flow.visit { s with worklist := rest } index = .ok s') :
    flow.Settled Good Le s' ∧ ∀ e, s.Holds Le e → s'.Holds Le e := by
  obtain ⟨before, i, after, sent, hbefore, hi, hafter, hsent, hreceive⟩ := visit_cases h
  obtain ⟨hgrows, hholds, hgood⟩ := receiveAll_grows
    (s := flow.visited { s with worklist := rest } index before after) ha hs.good
    (fun e he => hs.size ▸ ha.sends hi (hs.good hbefore) hafter hsent e he) hreceive
  have hkeep : ∀ e, s.Holds Le e → s'.Holds Le e := fun e he =>
    FlowState.Holds.grows (s := flow.visited { s with worklist := rest } index before after)
      ha.trans he hgrows
  refine ⟨⟨hgrows.size.trans hs.size, hgood, fun {k f} hf => ?_⟩, hkeep⟩
  rcases hgrows.changed hf with hin | hold
  · exact .inl hin
  by_cases hk : k = index
  · subst hk
    obtain rfl : before = f := Option.some.inj (hbefore.symm.trans hold)
    exact .inr ⟨i, after, sent, hi, hafter, hsent, hholds⟩
  · rcases hs.sent hold with hin | ⟨j, after', sent', hj, hafter', hsent', hheld⟩
    · rw [hnext] at hin
      exact .inl (hgrows.worklist k ((List.mem_cons.mp hin).resolve_left hk))
    · exact .inr ⟨j, after', sent', hj, hafter', hsent', fun e he => hkeep e (hheld e he)⟩

/-- **The fixpoint.** In the end every instruction with a frame has sent what the frame gives, and
all of it is below the frames there. -/
theorem settle_fixpoint (ha : flow.Ascending Good Le) {fuel : Nat}
    (h : flow.settle fuel s = .ok s') (hs : flow.Settled Good Le s) :
    (∀ {index f}, s'.frameAt index = some f → Good index f ∧ flow.Sent Le s' index f) ∧
      ∀ e, s.Holds Le e → s'.Holds Le e := by
  obtain ⟨⟨hsettled, hheld⟩, hempty⟩ := settle_induction
    (P := fun s' => flow.Settled Good Le s' ∧ ∀ e, s.Holds Le e → s'.Holds Le e)
    (fun s₁ s₂ index rest hnext hs₁ hvisit => by
      obtain ⟨hsettled, hheld⟩ := visit_settled ha hnext hs₁.1 hvisit
      exact ⟨hsettled, fun e he => hheld e (hs₁.2 e he)⟩) h ⟨hs, fun _ he => he⟩
  refine ⟨fun {index f} hf => ⟨hsettled.good hf, ?_⟩, hheld⟩
  rcases hsettled.sent hf with hin | hsent
  · rw [hempty] at hin
    cases hin
  · exact hsent

end Flow

/-! ## Analyzed bodies -/

section

variable {h : Hierarchy} {owner : ClassName} {name : MemberName} {d : MethodDescriptor}
  {isStatic : Bool} {c : Code} {a : Analysis} {Good : Nat → Frame → Prop}
  {Le : Frame → Frame → Prop}

/-- The frames of an analyzed body: the first one is above the frame on entry, every instruction with
a frame accepts it and finds its targets, and what goes along an edge is below the frame there. -/
theorem Analyzed.fixpoint (analyzed : Analyzed h owner name d isStatic c a)
    (ha : analyzed.flow.Ascending Good Le) (hentry : Good 0 (.entry owner name d isStatic a.maxLocals)) :
    (∃ g, a.frames.getD 0 none = some g ∧ Le (.entry owner name d isStatic a.maxLocals) g) ∧
      ∀ {index f}, a.frames.getD index none = some f → Good index f ∧
        ∃ i after, c.instructions[index]? = some i ∧ f.step ⟨owner, d.result⟩ index i = .ok after ∧
          (∀ l ∈ i.targets, ∃ target, analyzed.positions.find l = .ok target) ∧
          ∀ via target, c.Edge index via target → ∃ sent g, Frame.along h f after via = .ok sent ∧
            a.frames.getD target none = some g ∧ Le sent g := by
  have hsettle := analyzed.settle_eq
  generalize Frame.entry owner name d isStatic a.maxLocals = entry at hsettle hentry ⊢
  have hstart : analyzed.flow.Settled Good Le (.start c entry) := by
    refine ⟨?_, fun {index f} hf => ?_, fun {index f} hf => .inl ?_⟩
    · simp [FlowState.start, Analyzed.flow, Flow.ofCode]
    · obtain ⟨rfl, rfl⟩ := FlowState.frameAt_start hf
      exact hentry
    · obtain ⟨rfl, -⟩ := FlowState.frameAt_start hf
      exact List.mem_cons_self ..
  have hfirst : (FlowState.start c entry).Holds Le (0, entry) := by
    refine ⟨entry, ?_, ha.refl entry⟩
    simp [FlowState.frameAt, FlowState.start, analyzed.nonempty]
  obtain ⟨hend, hheld⟩ := Flow.settle_fixpoint ha hsettle hstart
  rw [analyzed.frames_eq]
  refine ⟨hheld _ hfirst, fun {index f} hf => ?_⟩
  obtain ⟨hgood, i, after, sent, hi, hafter, hsent, hheld⟩ := hend hf
  have hstep := Flow.afterFrame_step hafter
  rw [analyzed.flow_instructions] at hi
  rw [analyzed.flow_context] at hstep
  refine ⟨hgood, i, after, hi, hstep, fun l hl => Flow.target_found hsent hl,
    fun via target hedge => ?_⟩
  obtain ⟨outgoing, halong, hmem⟩ := analyzed.sent_of_edge hi hsent hedge
  obtain ⟨g, hg, hle⟩ := hheld _ hmem
  exact ⟨outgoing, g, halong, hg, hle⟩

/-! ## In an orderly hierarchy -/

/-- The classes that a method can bring into its frames are known: those of the receiver and the
parameters, those that instructions name, and those that handlers catch. -/
structure Code.KnownIn (h : Hierarchy) (owner : ClassName) (d : MethodDescriptor) (c : Code) :
    Prop where
  /-- the class of the method -/
  owner : h.Knows owner
  /-- what the method takes -/
  parameters : ∀ t ∈ d.parameters, (SlotType.ofField t).KnownIn h
  /-- what instructions put into frames -/
  instructions : ∀ (index : Nat) i, c.instructions[index]? = some i →
    ∀ t ∈ i.puts index, t.KnownIn h
  /-- what is caught -/
  handlers : ∀ x ∈ c.handlers, h.Knows (x.caught.getD .throwable)

/-- The frame on entry is well formed, and its classes are known. -/
theorem Frame.entry_sound {size : Nat} (hc : c.KnownIn h owner d)
    (hsize : (Frame.arguments owner name d isStatic).length ≤ size) :
    (Frame.entry owner name d isStatic size).Sound h size := by
  have hslots : ∀ t ∈ d.parameters, ∀ u ∈ slotsOf (.ofField t), u.KnownIn h := by
    intro t ht u hu
    simp only [slotsOf] at hu
    split at hu
    · rcases List.mem_cons.mp hu with rfl | hu
      · exact hc.parameters t ht
      · obtain rfl := List.mem_singleton.mp hu
        exact trivial
    · obtain rfl := List.mem_singleton.mp hu
      exact hc.parameters t ht
  have hreceiver : (receiver owner name).KnownIn h := by
    simp only [receiver]
    split
    · exact trivial
    · exact hc.owner
  refine ⟨entry_wellFormed hsize, fun u hu => ?_, fun _ hu => absurd hu List.not_mem_nil⟩
  rcases List.mem_append.mp hu with hu | hu
  · rcases List.mem_append.mp hu with hu | hu
    · cases isStatic with
      | true => cases hu
      | false =>
        obtain rfl := List.mem_singleton.mp hu
        exact hreceiver
    · obtain ⟨t, ht, hu⟩ := List.mem_flatMap.mp hu
      exact hslots t ht u hu
  · obtain rfl := List.eq_of_mem_replicate hu
    exact trivial

/-- What goes along an edge from a sound frame is sound. -/
theorem Frame.along_sound {size index target : Nat} {via : Option Handler} {i : Instruction}
    {f after sent : Frame} (ho : h.Orderly) (hc : c.KnownIn h owner d) (hf : f.Sound h size)
    (hi : c.instructions[index]? = some i) (hstep : f.step ⟨owner, d.result⟩ index i = .ok after)
    (hedge : c.Edge index via target) (halong : along h f after via = .ok sent) :
    sent.Sound h size := by
  have howner : h.Knows (MethodContext.mk owner d.result).owner := hc.owner
  have hafter : after.Sound h size := step_sound howner (hc.instructions index i hi) hf hstep
  cases via with
  | none =>
    cases halong
    exact hafter
  | some x =>
    have hx : x ∈ c.handlers := by
      cases hedge
      assumption
    have hhandler : ∀ {g : Frame}, g.Sound h size → (g.handler x.caught).Sound h size := by
      intro g hg
      refine ⟨hg.wellFormed.handler x.caught, hg.known.1, fun t ht => ?_⟩
      obtain rfl := List.mem_singleton.mp ht
      exact hc.handlers x hx
    exact merge_sound ho (hhandler hf) (hhandler hafter) halong

/-- An orderly hierarchy gives an order along which the analysis climbs. -/
theorem Analyzed.ascending (analyzed : Analyzed h owner name d isStatic c a) (ho : h.Orderly)
    (hc : c.KnownIn h owner d) :
    analyzed.flow.Ascending (fun index f => f.Sound h a.maxLocals ∧ c.Reachable index)
      (Frame.Under h) where
  refl := Frame.Pointwise.refl SlotType.Under.refl
  trans _ _ _ := Frame.Pointwise.trans (R := SlotType.Under h) fun _ _ _ => SlotType.Under.trans ho
  sends {index before i after sent} hi hgood hafter hsent e he := by
    have hstep := Flow.afterFrame_step hafter
    rw [analyzed.flow_instructions] at hi
    rw [analyzed.flow_context] at hstep
    obtain ⟨hsize, via, hedge, halong⟩ := analyzed.mem_sent hi hsent he
    exact ⟨⟨Frame.along_sound ho hc hgood.1 hi hstep hedge halong, hgood.2.tail ⟨via, hedge⟩⟩, hsize⟩
  merge ha hb hm :=
    ⟨⟨Frame.merge_sound ho ha.1 hb.1 hm, ha.2⟩, Frame.merge_under ho ha.1 hb.1 hm⟩

/-- **The analysis is a fixpoint and finds exactly the code that can be reached.** The instructions
with a frame are those to which edges lead from the first one; each of them accepts its frame, and
merging what goes along one of its edges into the frame there changes nothing. -/
theorem analyzeCode_fixpoint (ho : h.Orderly) (hc : c.KnownIn h owner d)
    (hok : analyzeCode h owner name d isStatic c = .ok a) :
    (∀ index, a.isReachable index = true ↔ c.Reachable index) ∧
      ∀ index f, a.frames.getD index none = some f →
        ∃ i after, c.instructions[index]? = some i ∧ f.step ⟨owner, d.result⟩ index i = .ok after ∧
          ∀ via target, c.Edge index via target → ∃ sent g, Frame.along h f after via = .ok sent ∧
            a.frames.getD target none = some g ∧ Frame.merge h g sent = .ok g := by
  obtain ⟨analyzed⟩ := analyzeCode_analyzed hok
  obtain ⟨⟨first, hfirst, -⟩, hall⟩ := analyzed.fixpoint (analyzed.ascending ho hc)
    ⟨Frame.entry_sound hc analyzed.arguments_le, .refl⟩
  refine ⟨fun index => ⟨fun hreach => ?_, fun hreach => ?_⟩, fun index f hf => ?_⟩
  · obtain ⟨f, hf⟩ := Option.isSome_iff_exists.mp hreach
    exact (hall hf).1.2
  · refine Option.isSome_iff_exists.mpr ?_
    -- along a path: what receives a frame has one
    induction hreach with
    | refl => exact ⟨first, hfirst⟩
    | tail _ hedge ih =>
      obtain ⟨via, hedge⟩ := hedge
      obtain ⟨f, hf⟩ := ih
      obtain ⟨-, i, after, -, -, -, hedges⟩ := hall hf
      obtain ⟨sent, g, -, hg, -⟩ := hedges via _ hedge
      exact ⟨g, hg⟩
  · obtain ⟨⟨hsound, -⟩, i, after, hi, hstep, -, hedges⟩ := hall hf
    refine ⟨i, after, hi, hstep, fun via target hedge => ?_⟩
    obtain ⟨sent, g, halong, hg, hunder⟩ := hedges via target hedge
    have hsent := Frame.along_sound ho hc hsound hi hstep hedge halong
    exact ⟨sent, g, halong, hg,
      Frame.merge_absorbs ho (hall hg).1.1.wellFormed hsent.known hunder⟩

end

namespace Shapes

/-- The class above the other two. -/
def shape : ClassName := { text := "Shape" }
/-- One class below. -/
def circle : ClassName := { text := "Circle" }
/-- The other one. -/
def square : ClassName := { text := "Square" }

/-- Two classes that have nothing in common but an interface. -/
def hierarchy : Hierarchy where
  types := [⟨.object, none, [], false⟩, ⟨shape, some .object, [], true⟩,
    ⟨circle, some .object, [shape], false⟩, ⟨square, some .object, [shape], false⟩]

/-- Takes one of each, and gives what is above both. -/
def descriptor : MethodDescriptor := ⟨[.object circle, .object square, .int], some (.object shape)⟩

/-- Gives one of two shapes; control never gets to the last instruction. -/
def choose : Code where
  maxLocals := 3
  maxStack := 1
  instructions := #[.load .int 2, .ifZero .eq ⟨0⟩, .load .object 0, .store .object 1, .label ⟨0⟩,
    .load .object 1, .returnValue .object, .nop]
  handlers := []
  stackMap := none
  nextLabel := ⟨1⟩

/-- How far a class is from the root. -/
def height (c : ClassName) : Nat := if c = .object then 0 else if c = shape then 1 else 2

/-- Types have a height, and what is above is lower. -/
theorem super_lower {c d : ClassName} (h : hierarchy.Super c d) : height d < height c := by
  obtain ⟨info, hinfo, hd⟩ := h
  obtain ⟨hmem, rfl⟩ := Hierarchy.mem_of_lookup hinfo
  have hall : ∀ info ∈ hierarchy.types, ∀ d ∈ info.supers, height d < height info.name := by
    decide +kernel
  exact hall info hmem d hd

/-- The hierarchy of the sample is in order. -/
theorem orderly : hierarchy.Orderly where
  closed c d hd := by
    obtain ⟨info, hinfo, hd⟩ := hd
    have hall : ∀ info ∈ hierarchy.types, ∀ d ∈ info.supers, (hierarchy.lookup d).isSome = true := by
      decide +kernel
    exact Option.isSome_iff_exists.mp (hall info (Hierarchy.mem_of_lookup hinfo).1 d hd)
  acyclic c hc := by
    have hlower : ∀ {d}, Relation.TransGen hierarchy.Super c d → height d < height c := by
      intro d hd
      induction hd with
      | single hstep => exact super_lower hstep
      | tail _ hstep ih => exact Nat.lt_trans (super_lower hstep) ih
    exact Nat.lt_irrefl _ (hlower hc)
  root c := by
    constructor
    · rintro ⟨info, hinfo, hnone⟩
      obtain ⟨hmem, rfl⟩ := Hierarchy.mem_of_lookup hinfo
      have hall : ∀ info ∈ hierarchy.types, info.superclass = none → info.name = .object := by
        decide +kernel
      exact hall info hmem hnone
    · rintro rfl
      exact ⟨⟨.object, none, [], false⟩, rfl, rfl⟩
  cloneable c hc := by
    obtain ⟨info, hinfo, -⟩ := hc
    have hnone : hierarchy.lookup .cloneable = none := by decide +kernel
    rw [hnone] at hinfo
    cases hinfo
  serializable c hc := by
    obtain ⟨info, hinfo, -⟩ := hc
    have hnone : hierarchy.lookup .serializable = none := by decide +kernel
    rw [hnone] at hinfo
    cases hinfo

theorem knows {c : ClassName} (hc : (hierarchy.lookup c).isSome = true) : hierarchy.Knows c :=
  Option.isSome_iff_exists.mp hc

/-- All classes of the sample are known. -/
theorem choose_known : choose.KnownIn hierarchy shape descriptor where
  owner := knows (by decide +kernel)
  parameters t ht := by
    simp only [descriptor, List.mem_cons, List.not_mem_nil, or_false] at ht
    rcases ht with rfl | rfl | rfl
    · exact knows (c := circle) (by decide +kernel)
    · exact knows (c := square) (by decide +kernel)
    · exact trivial
  instructions index i hi t ht := by
    have hmem := Array.mem_of_getElem? hi
    have hnone : i.puts index = [] := by
      simp only [choose, List.mem_toArray, List.mem_cons, List.not_mem_nil, or_false] at hmem
      rcases hmem with rfl | rfl | rfl | rfl | rfl | rfl | rfl | rfl <;> rfl
    rw [hnone] at ht
    cases ht
  handlers := nofun

/-- Frames on both sides of the place where the two branches meet. -/
theorem choose_frames : ∃ a, analyzeCode hierarchy shape .run descriptor true choose = .ok a ∧
    a.isReachable 6 = true ∧ a.isReachable 7 = false ∧
    a.frames.getD 3 none = some ⟨[.ofClass circle, .ofClass square, .integer], [.ofClass circle]⟩ ∧
    a.frames.getD 4 none = some ⟨[.ofClass circle, .ofClass .object, .integer], []⟩ := by
  have hany : (analyzeCode hierarchy shape .run descriptor true choose).toOption.any (fun a =>
      a.isReachable 6 = true ∧ a.isReachable 7 = false ∧
      a.frames.getD 3 none = some ⟨[.ofClass circle, .ofClass square, .integer], [.ofClass circle]⟩ ∧
      a.frames.getD 4 none = some ⟨[.ofClass circle, .ofClass .object, .integer], []⟩) = true := by
    decide +kernel
  cases hok : analyzeCode hierarchy shape .run descriptor true choose with
  | ok a =>
    rw [hok] at hany
    exact ⟨a, rfl, of_decide_eq_true hany⟩
  | error e =>
    rw [hok] at hany
    cases hany

end Shapes

/-- Where the two branches meet, the local holds an object of which nothing else is known. -/
theorem analyzeCode_fixpoint_shapes : ∃ a,
    analyzeCode Shapes.hierarchy Shapes.shape .run Shapes.descriptor true Shapes.choose = .ok a ∧
      Shapes.choose.Reachable 6 ∧ ¬ Shapes.choose.Reachable 7 ∧
      ∃ sent g, sent.locals[1]? = some (.ofClass Shapes.circle) ∧
        a.frames.getD 4 none = some g ∧ g.locals[1]? = some (.ofClass .object) ∧
        Frame.merge Shapes.hierarchy g sent = .ok g := by
  obtain ⟨a, hok, hend, hdead, hbranch, hmeet⟩ := Shapes.choose_frames
  obtain ⟨hreach, hall⟩ := analyzeCode_fixpoint Shapes.orderly Shapes.choose_known hok
  refine ⟨a, hok, (hreach 6).mp hend, fun h => ?_, ?_⟩
  · rw [(hreach 7).mpr h] at hdead
    cases hdead
  · obtain ⟨i, after, hi, hstep, hedges⟩ := hall 3 _ hbranch
    obtain rfl : .store .object 1 = i := Option.some.inj hi
    cases hstep
    obtain ⟨sent, g, halong, hg, hmerge⟩ := hedges none 4 (.next hi rfl)
    cases halong
    obtain rfl := Option.some.inj (hmeet.symm.trans hg)
    exact ⟨_, _, rfl, hg, rfl, hmerge⟩

end Resumption
