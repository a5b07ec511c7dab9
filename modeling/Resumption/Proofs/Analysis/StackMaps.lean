import Resumption.Analysis.StackMap
import Resumption.Proofs.Analysis.Fixpoint

/-!
# Stack maps tell the frames of the analysis

A stack map is read entry by entry, each relative to the frame that the one before told
(`CompactFrame.decode`).

* **`CompactFrame.apply_entry`**: an entry tells the frame it was made for, whatever came before.
* **`CompactFrame.ofFrame_tells`**: a compact frame says all that is to be said about a well-formed one.
* **`Analyzed.joinPoints_spec`**: entries stand for the labels at which control can come together, in order.
* **`withMetadata_stackMap`**: so reading a stack map gives the frames of the analysis there
  (`Analysis.ToldBy`).

Where reading starts is the frame at the first instruction. This is the frame on entry as long as
control does not come back to the first instruction; if it does, the frame there may be a weaker one
(`withMetadata_stackMap_loop`).
-/

namespace Resumption

/-- The label that an entry stands for. -/
def StackMapEntry.label : StackMapEntry → Label
  | .same l | .sameLocalsOneStack l _ | .chop l _ | .append l _ | .full l _ _ => l

namespace CompactFrame

/-- The labels of a stack map, each with the frame that its entry tells. -/
def decode (previous : CompactFrame) : List StackMapEntry → List (Label × CompactFrame)
  | [] => []
  | e :: rest => (e.label, previous.apply e) :: (previous.apply e).decode rest

/-- A compact frame tells a frame: wide locals take one entry for their two slots, no unusable local
stands at the end, and the stack is bottom first. -/
structure Tells (compact : CompactFrame) (f : Frame) : Prop where
  /-- the variables, spread over words and filled up -/
  locals : Frame.padded f.locals.length (compact.locals.flatMap Frame.slotsOf) = f.locals
  /-- it does not end with what is unknown -/
  trimmed : compact.locals.getLast? ≠ some .top
  /-- the operands -/
  stack : compact.stack = f.stack.reverse

/-! ## Entries -/

/-- An entry is for the label that it was made for. -/
theorem entry_label (previous current : CompactFrame) (l : Label) :
    (previous.entry l current).label = l := by
  simp only [entry]
  split
  · split
    · split
      · split <;> rfl
      · rfl
    · split <;> rfl
  · split <;> rfl
  · rfl

/-- **Entries.** An entry tells the frame for which it was made. -/
theorem apply_entry (previous current : CompactFrame) (l : Label) :
    previous.apply (previous.entry l current) = current := by
  obtain ⟨locals, stack⟩ := current
  match stack with
  | [] =>
    simp only [entry]
    split
    · rename_i hsize
      split
      · rename_i hprefix
        simp only [Bool.and_eq_true, decide_eq_true_eq, List.isPrefixOf_iff_prefix] at hprefix
        have htake : previous.locals.take locals.length = locals :=
          (List.prefix_iff_eq_take.mp hprefix.2).symm
        split
        · rename_i hsame
          rw [← hsame, List.take_length] at htake
          rw [apply, htake]
        · rw [apply, Nat.sub_sub_self hsize, htake]
      · rfl
    · split
      · rename_i hprefix
        simp only [Bool.and_eq_true, decide_eq_true_eq, List.isPrefixOf_iff_prefix] at hprefix
        obtain ⟨more, rfl⟩ := hprefix.2
        rw [apply, List.drop_left]
      · rfl
  | [t] =>
    simp only [entry]
    split
    · rename_i hsame
      rw [apply, hsame]
    · rfl
  | _ :: _ :: _ => rfl

/-! ## Compact frames -/

/-- Leaving out the second halves of wide values can be undone. -/
theorem compact_expands (kept : List SlotType) {locals : List SlotType}
    (hhalves : Frame.HalvesMatch locals) :
    ∃ entries, compact 0 kept locals = kept.reverse ++ entries ∧
      entries.flatMap Frame.slotsOf = locals := by
  -- a wide local takes two slots at once, so the induction is on how many are left
  induction hsize : locals.length using Nat.strong_induction_on generalizing locals kept with
  | _ size ih =>
  subst hsize
  match locals with
  | [] => exact ⟨[], (List.append_nil _).symm, rfl⟩
  | t :: rest =>
    by_cases hwide : t.width = 2
    · obtain ⟨rest, rfl⟩ : ∃ after, rest = .top :: after := by
        have hnext : rest[0]? = some .top := hhalves 0 t rfl hwide
        cases rest with
        | nil => cases hnext
        | cons u after => exact ⟨after, by rw [Option.some.inj hnext]⟩
      obtain ⟨entries, heq, hexpand⟩ := ih rest.length (by simp) (t :: kept)
        (fun i => hhalves (i + 2)) rfl
      refine ⟨t :: entries, ?_, ?_⟩
      · rw [compact, hwide, compact, heq, List.reverse_cons, List.append_assoc]
        rfl
      · rw [List.flatMap_cons, hexpand, Frame.slotsOf, if_pos hwide]
        rfl
    · have hnarrow : t.width = 1 := by
        cases t with
        | double | long => exact absurd rfl hwide
        | _ => rfl
      obtain ⟨entries, heq, hexpand⟩ := ih rest.length (by simp) (t :: kept)
        (fun i => hhalves (i + 1)) rfl
      refine ⟨t :: entries, ?_, ?_⟩
      · rw [compact, hnarrow, heq, List.reverse_cons, List.append_assoc]
        rfl
      · rw [List.flatMap_cons, hexpand, Frame.slotsOf, if_neg hwide]
        rfl

/-- What is left out at the end is unusable. -/
theorem trim_append (locals : List SlotType) :
    ∃ n, trim locals ++ List.replicate n .top = locals := by
  refine ⟨(locals.rtakeWhile (· = .top)).length, ?_⟩
  have hdropped : List.replicate (locals.rtakeWhile (· = .top)).length SlotType.top =
      locals.rtakeWhile (· = .top) := by
    refine (List.eq_replicate_iff.mpr ⟨rfl, fun t ht => ?_⟩).symm
    simpa using List.mem_rtakeWhile_imp ht
  rw [hdropped]
  exact List.rdropWhile_append_rtakeWhile

/-- What is trimmed does not end with what is unknown. -/
theorem trim_getLast? (locals : List SlotType) : (trim locals).getLast? ≠ some .top := by
  intro hlast
  have hne : trim locals ≠ [] := by
    intro hnil
    rw [hnil] at hlast
    cases hlast
  rw [List.getLast?_eq_some_getLast hne] at hlast
  apply List.rdropWhile_last_not (fun t => decide (t = SlotType.top)) locals hne
  exact decide_eq_true (Option.some.inj hlast)

/-- Nothing is lost of locals among which no half of a wide one stands alone. -/
theorem ofFrame_locals {f : Frame} (hhalves : Frame.HalvesMatch f.locals) :
    Frame.padded f.locals.length ((ofFrame f).locals.flatMap Frame.slotsOf) = f.locals := by
  obtain ⟨entries, heq, hexpand⟩ := compact_expands [] hhalves
  obtain ⟨n, htrim⟩ := trim_append entries
  have hunusable : ∀ n, (List.replicate n SlotType.top).flatMap Frame.slotsOf =
      List.replicate n .top := by
    intro n
    induction n with
    | zero => rfl
    | succ n ih =>
      rw [List.replicate_succ, List.flatMap_cons, ih]
      rfl
  rw [← htrim, List.flatMap_append, hunusable] at hexpand
  simp only [ofFrame, heq, List.reverse_nil, List.nil_append]
  rw [← hexpand, Frame.padded, List.length_append, List.length_replicate, Nat.add_sub_cancel_left]

/-- **Compact frames.** Nothing is lost of a well-formed frame. -/
theorem ofFrame_tells {size : Nat} {f : Frame} (hf : f.WellFormed size) : (ofFrame f).Tells f where
  locals := ofFrame_locals hf.halves
  trimmed := trim_getLast? _
  stack := rfl

end CompactFrame

/-! ## Join points -/

/-- A label at which control can come together: an instruction that can be reached jumps to it, or
a handler starts there, and its place can be reached. -/
structure Code.JoinsAt (c : Code) (l : Label) (position : Nat) : Prop where
  /-- there is a label -/
  stands : c.instructions[position]? = some (.label l)
  /-- control comes there -/
  reachable : c.Reachable position
  /-- not only from the instruction before -/
  target : (∃ (index : Nat) (i : Instruction), c.Reachable index ∧
    c.instructions[index]? = some i ∧ l ∈ i.targets) ∨ ∃ x ∈ c.handlers, x.entry = l

/-- Labels filed under their positions, in increasing order. -/
def Filed (points : List (Nat × Label)) : Prop := points.Pairwise fun p q => p.1 < q.1

/-- Filing a label leaves the others where they are. -/
theorem mem_fileLabel {position : Nat} {l : Label} {filed : List (Nat × Label)}
    (hsame : ∀ m, (position, m) ∈ filed → m = l) {p : Nat × Label} :
    p ∈ fileLabel position l filed ↔ p = (position, l) ∨ p ∈ filed := by
  induction filed with
  | nil => simp [fileLabel]
  | cons q rest ih =>
    obtain ⟨k, m⟩ := q
    have hrest := ih fun m hm => hsame m (List.mem_cons_of_mem _ hm)
    simp only [fileLabel]
    split
    · exact List.mem_cons
    · split
      · rename_i heq
        subst heq
        obtain rfl := hsame m (List.mem_cons_self ..)
        simp
      · rw [List.mem_cons, hrest, List.mem_cons]
        tauto

/-- Labels that are filed in order stay in order. -/
theorem fileLabel_filed {position : Nat} {l : Label} {filed : List (Nat × Label)}
    (hsame : ∀ m, (position, m) ∈ filed → m = l) (hfiled : Filed filed) :
    Filed (fileLabel position l filed) := by
  induction filed with
  | nil => exact List.pairwise_singleton _ _
  | cons q rest ih =>
    obtain ⟨k, m⟩ := q
    obtain ⟨hlater, hrest⟩ := List.pairwise_cons.mp hfiled
    simp only [fileLabel]
    split
    · rename_i hbefore
      refine List.pairwise_cons.mpr ⟨fun p hp => ?_, hfiled⟩
      rcases List.mem_cons.mp hp with rfl | hp
      · exact hbefore
      · exact Nat.lt_trans hbefore (hlater p hp)
    · split
      · rename_i heq
        subst heq
        exact List.pairwise_cons.mpr ⟨hlater, hrest⟩
      · have hsame' : ∀ m, (position, m) ∈ rest → m = l :=
          fun m hm => hsame m (List.mem_cons_of_mem _ hm)
        refine List.pairwise_cons.mpr ⟨fun p hp => ?_, ih hsame' hrest⟩
        rcases (mem_fileLabel hsame').mp hp with rfl | hp
        · show k < position
          omega
        · exact hlater p hp

/-- Merging a frame with itself changes nothing, whatever the hierarchy. -/
theorem Frame.merge_self {h : Hierarchy} {size : Nat} {f m : Frame} (hf : f.WellFormed size)
    (hm : merge h f f = .ok m) : m = f := by
  have hsame : ∀ t : SlotType, SlotType.merge h t t = .ok t := fun t => by simp [SlotType.merge]
  have hself : merge h f f = .ok f := by
    refine (merge_iff rfl).mpr ⟨rfl, ?_, f.locals, ?_, (withoutHalves_of_halves hf.halves).symm⟩
    · refine forall₂_zip_self (List.forall₂_same.mpr fun t _ => rfl) ?_
      rintro t ht u - rfl
      exact ⟨hsame u, hf.stack u ht⟩
    · refine forall₂_zip_self (List.forall₂_same.mpr fun t _ => rfl) ?_
      rintro t - u - rfl
      exact hsame u
  exact Except.ok.inj (hm.symm.trans hself)

section

variable {h : Hierarchy} {owner : ClassName} {name : MemberName} {d : MethodDescriptor}
  {isStatic : Bool} {c : Code} {a : Analysis}

/-- Filing labels one after the other. A position has one label at most, so none is displaced. -/
theorem foldlM_fileLabel {positions : LabelPositions} (hpositions : c.labelPositions = .ok positions)
    {labels : List Label} {filed points : List (Nat × Label)}
    (hok : labels.foldlM (fun filed l => do
      let position ← liftError CodeError.ofLabel (positions.find l)
      return if a.isReachable position then fileLabel position l filed else filed) filed =
        (.ok points : Except CodeError _))
    (hfiled : Filed filed) (hstands : ∀ p ∈ filed, positions.find p.2 = .ok p.1) :
    Filed points ∧ ∀ p, p ∈ points ↔
      p ∈ filed ∨ (p.2 ∈ labels ∧ positions.find p.2 = .ok p.1 ∧ a.isReachable p.1 = true) := by
  -- Whatever is filed stands for its label, so two labels of one place cannot both be filed.
  induction labels generalizing filed with
  | nil =>
    cases hok
    exact ⟨hfiled, fun p => by simp⟩
  | cons l labels ih =>
    rw [List.foldlM_cons] at hok
    obtain ⟨filed', hnext, hok⟩ := Except.bind_ok.mp hok
    obtain ⟨position, hposition, hnext⟩ := Except.bind_ok.mp hnext
    replace hposition := liftError_ok hposition
    have honly : ∀ k, positions.find l = .ok k ↔ k = position := fun k => by
      rw [hposition, Except.ok.injEq, eq_comm]
    have hsame : ∀ m, (position, m) ∈ filed → m = l := by
      intro m hm
      have hplace := (Code.find_iff hpositions).mp (hstands _ hm)
      rw [(Code.find_iff hpositions).mp hposition] at hplace
      cases hplace
      rfl
    split at hnext
    · rename_i hreach
      cases hnext
      obtain ⟨hsorted, hmem⟩ := ih hok (fileLabel_filed hsame hfiled) fun p hp => by
        rcases (mem_fileLabel hsame).mp hp with rfl | hp
        · exact hposition
        · exact hstands p hp
      refine ⟨hsorted, fun p => ?_⟩
      obtain ⟨k, m⟩ := p
      rw [hmem, mem_fileLabel hsame, List.mem_cons, Prod.mk.injEq]
      constructor
      · rintro ((⟨rfl, rfl⟩ | hp) | ⟨hm, hfind⟩)
        · exact .inr ⟨.inl rfl, hposition, hreach⟩
        · exact .inl hp
        · exact .inr ⟨.inr hm, hfind⟩
      · rintro (hp | ⟨rfl | hm, hfind⟩)
        · exact .inl (.inr hp)
        · exact .inl (.inl ⟨(honly k).mp hfind.1, rfl⟩)
        · exact .inr ⟨hm, hfind⟩
    · rename_i hdead
      cases hnext
      obtain ⟨hsorted, hmem⟩ := ih hok hfiled hstands
      refine ⟨hsorted, fun p => ?_⟩
      obtain ⟨k, m⟩ := p
      rw [hmem, List.mem_cons]
      constructor
      · rintro (hp | ⟨hm, hfind⟩)
        · exact .inl hp
        · exact .inr ⟨.inr hm, hfind⟩
      · rintro (hp | ⟨rfl | hm, hfind⟩)
        · exact .inl hp
        · rw [(honly k).mp hfind.1] at hfind
          exact absurd hfind.2 hdead
        · exact .inr ⟨hm, hfind⟩

/-- What control can reach has a frame, and nothing else; and if control does not come back to the
first instruction, the frame there is the one on entry. No order of types is needed for this. -/
theorem Analyzed.reachable (analyzed : Analyzed h owner name d isStatic c a) :
    (∀ index, a.isReachable index = true ↔ c.Reachable index) ∧
      ((∀ index via, c.Reachable index → ¬ c.Edge index via 0) →
        a.frames.getD 0 none = some (.entry owner name d isStatic a.maxLocals)) := by
  have hentry : (Frame.entry owner name d isStatic a.maxLocals).WellFormed a.maxLocals :=
    Frame.entry_wellFormed analyzed.arguments_le
  generalize hfirst : Frame.entry owner name d isStatic a.maxLocals = entry at hentry ⊢
  -- what is true of all frames: control reaches them, and the first one is never merged into
  have ha : analyzed.flow.Ascending (fun index f => c.Reachable index ∧
      ((∀ index via, c.Reachable index → ¬ c.Edge index via 0) → index = 0 → f = entry))
      (fun _ _ => True) := {
    refl := fun _ => trivial
    trans := fun _ _ _ _ _ => trivial
    sends := fun {index before i after sent} hi hgood _ hsent e he => by
      rw [analyzed.flow_instructions] at hi
      obtain ⟨hsize, via, hedge, -⟩ := analyzed.mem_sent hi hsent he
      refine ⟨⟨hgood.1.tail ⟨via, hedge⟩, fun hnever hzero => ?_⟩, hsize⟩
      rw [hzero] at hedge
      exact absurd hedge (hnever index via hgood.1)
    merge := fun {index a b m} ha hb hm => by
      refine ⟨⟨ha.1, fun hnever hzero => ?_⟩, trivial, trivial⟩
      rw [ha.2 hnever hzero, hb.2 hnever hzero] at hm
      exact Frame.merge_self hentry hm }
  obtain ⟨⟨g, hg, -⟩, hall⟩ := analyzed.fixpoint ha ⟨.refl, fun _ _ => hfirst⟩
  refine ⟨fun index => ⟨fun hreach => ?_, fun hreach => ?_⟩, fun hnever => ?_⟩
  · obtain ⟨f, hf⟩ := Option.isSome_iff_exists.mp hreach
    exact (hall hf).1.1
  · refine Option.isSome_iff_exists.mpr ?_
    induction hreach with
    | refl => exact ⟨g, hg⟩
    | tail _ hedge ih =>
      obtain ⟨via, hedge⟩ := hedge
      obtain ⟨f, hf⟩ := ih
      obtain ⟨-, i, after, -, -, -, hedges⟩ := hall hf
      obtain ⟨sent, g, -, hg, -⟩ := hedges via _ hedge
      exact ⟨g, hg⟩
  · rw [hg, (hall hg).1.2 hnever rfl]

/-- **Join points.** They are found in order, and none is left out. -/
theorem Analyzed.joinPoints_spec (analyzed : Analyzed h owner name d isStatic c a)
    {points : List (Nat × Label)} (hok : joinPoints c a = .ok points) :
    Filed points ∧ ∀ position l, (position, l) ∈ points ↔ c.JoinsAt l position := by
  obtain ⟨positions, hpositions, hok⟩ := Except.bind_ok.mp hok
  replace hpositions := liftError_ok hpositions
  obtain ⟨hfiled, hmem⟩ := foldlM_fileLabel hpositions hok List.Pairwise.nil nofun
  refine ⟨hfiled, fun position l => ?_⟩
  have hlabels : l ∈ joinLabels c a ↔ (∃ (index : Nat) (i : Instruction), c.Reachable index ∧
      c.instructions[index]? = some i ∧ l ∈ i.targets) ∨ ∃ x ∈ c.handlers, x.entry = l := by
    simp only [joinLabels, List.mem_append, List.mem_flatMap, List.mem_filter, List.mem_map,
      Prod.exists, List.mem_zipIdx_iff_getElem?, Array.getElem?_toList]
    refine or_congr_left ?_
    constructor
    · rintro ⟨i, index, ⟨hi, hreach⟩, hl⟩
      exact ⟨index, i, (analyzed.reachable.1 index).mp hreach, hi, hl⟩
    · rintro ⟨index, i, hreach, hi, hl⟩
      exact ⟨i, index, ⟨hi, (analyzed.reachable.1 index).mpr hreach⟩, hl⟩
  rw [hmem, hlabels, Code.find_iff hpositions, analyzed.reachable.1]
  constructor
  · rintro (hnone | ⟨htarget, hstands, hreach⟩)
    · cases hnone
    · exact ⟨hstands, hreach, htarget⟩
  · rintro ⟨hstands, hreach, htarget⟩
    exact .inr ⟨htarget, hstands, hreach⟩

/-! ## Tables -/

theorem Analysis.frame_ok {index : Nat} {f : Frame} :
    a.frame index = .ok f ↔ a.frames.getD index none = some f := by
  rw [Analysis.frame]
  cases a.frames.getD index none with
  | none => exact ⟨nofun, nofun⟩
  | some g => simp

/-- Reading the entries gives the frames for which they were made. -/
theorem stackMapEntries_decode {previous : CompactFrame} {points : List (Nat × Label)}
    {table : List StackMapEntry} (hok : stackMapEntries a previous points = .ok table) :
    List.Forall₂ (fun point told => told.1 = point.2 ∧
        ∃ f, a.frames.getD point.1 none = some f ∧ told.2 = .ofFrame f)
      points (previous.decode table) := by
  induction points generalizing previous table with
  | nil =>
    cases hok
    exact .nil
  | cons point points ih =>
    obtain ⟨position, l⟩ := point
    obtain ⟨f, hf, hok⟩ := Except.bind_ok.mp hok
    obtain ⟨rest, hrest, hok⟩ := Except.bind_ok.mp hok
    cases hok
    rw [CompactFrame.decode, CompactFrame.apply_entry, CompactFrame.entry_label]
    exact .cons ⟨rfl, f, Analysis.frame_ok.mp hf, rfl⟩ (ih hrest)

end

/-- Does reading a table from this frame on tell the frames of the analysis? There is one entry for
every label at which control can come together, in code order, and it tells the frame there. -/
def Analysis.ToldBy (a : Analysis) (c : Code) (start : CompactFrame) (table : List StackMapEntry) :
    Prop :=
  ∃ points : List (Nat × Label), points.Pairwise (fun p q => p.1 < q.1) ∧
    (∀ position l, (position, l) ∈ points ↔ c.JoinsAt l position) ∧
    List.Forall₂ (fun point told => told.1 = point.2 ∧
      ∃ f, a.frames.getD point.1 none = some f ∧ told.2.Tells f) points (start.decode table)

/-- **The stack map tells the frames of the analysis.** Whenever the metadata of a method is
computed, reading its stack map gives the frame of the analysis at each label at which control can
come together. Reading starts from the frame at the first instruction; unless control comes back to
the first instruction, this is the frame on entry, which the descriptor gives. -/
theorem withMetadata_stackMap {h : Hierarchy} {owner : ClassName} {m m' : Method}
    (hok : withMetadata h owner m = .ok m') :
    ∃ c a table, m.code = some c ∧ analyze h owner m = .ok a ∧
      m' = { m with code := some { c with
        maxStack := a.maxStack, maxLocals := a.maxLocals, stackMap := some table } } ∧
      (∃ f, a.frames.getD 0 none = some f ∧ a.ToldBy c (.ofFrame f) table) ∧
      ((∀ index via, c.Reachable index → ¬ c.Edge index via 0) →
        a.ToldBy c (.ofFrame (.entry owner m.name m.descriptor m.isStatic a.maxLocals)) table) := by
  obtain ⟨a, hanalyze, hok⟩ := Except.bind_ok.mp hok
  cases hcode : m.code with
  | none =>
    rw [hcode] at hok
    cases hok
  | some c =>
    rw [hcode] at hok
    obtain ⟨table, htable, hok⟩ := Except.bind_ok.mp hok
    cases hok
    obtain ⟨points, hpoints, htable⟩ := Except.bind_ok.mp htable
    obtain ⟨first, hfirst, htable⟩ := Except.bind_ok.mp htable
    have hanalyzed : analyzeCode h owner m.name m.descriptor m.isStatic c = .ok a := by
      simpa only [analyze, hcode] using hanalyze
    obtain ⟨analyzed⟩ := analyzeCode_analyzed hanalyzed
    obtain ⟨hfiled, hmem⟩ := analyzed.joinPoints_spec hpoints
    have hzero : a.frames.getD 0 none = some first := Analysis.frame_ok.mp hfirst
    have htold : a.ToldBy c (.ofFrame first) table := by
      refine ⟨points, hfiled, hmem, (stackMapEntries_decode htable).imp ?_⟩
      rintro point told ⟨hlabel, f, hf, htold⟩
      rw [htold]
      exact ⟨hlabel, f, hf, CompactFrame.ofFrame_tells (analyzeCode_wellFormed hanalyzed hf)⟩
    refine ⟨c, a, table, rfl, hanalyze, rfl, ⟨first, hzero, htold⟩, fun hnever => ?_⟩
    rw [analyzed.reachable.2 hnever] at hzero
    rw [Option.some.inj hzero]
    exact htold

namespace Joins

/-- The class of the sample. -/
def owner : ClassName := { text := "Joins" }

/-- A static method with this body. -/
def method (descriptor : MethodDescriptor) (instructions : Array Instruction) : Method where
  name := { text := "test" }
  descriptor
  flags := staticFlag
  annotations := []
  code := some {
    maxLocals := 0, maxStack := 0, instructions, handlers := [], stackMap := none, nextLabel := ⟨3⟩ }

/-- Branches meet below a wide local, with one of two numbers on the stack. -/
def meet : Method := method ⟨[.int], some .int⟩ #[.load .int 0, .ifZero .eq ⟨0⟩, .goto ⟨0⟩,
  .label ⟨0⟩, .pushLong 1, .store .long 1, .load .int 0, .ifZero .eq ⟨1⟩, .pushInt 3, .goto ⟨2⟩,
  .label ⟨1⟩, .pushInt 4, .label ⟨2⟩, .returnValue .int]

/-- The first round puts a float where the argument was; control then comes back to the start. -/
def loop : Method := method ⟨[.int], none⟩ #[.label ⟨0⟩, .pushFloat 0x3f800000, .store .float 0,
  .goto ⟨0⟩]

/-- The stack map that a method gets. -/
def tableOf (m : Method) : Option (List StackMapEntry) :=
  (withMetadata ⟨[]⟩ owner m).toOption.bind fun m' => m'.code.bind (·.stackMap)

/-- The frames of a method and the number of its locals. -/
def framesOf (m : Method) : Option (List (Option Frame) × Nat) :=
  (analyze ⟨[]⟩ owner m).toOption.map fun a => (a.frames.toList, a.maxLocals)

theorem meet_table : tableOf meet = some [.same ⟨0⟩, .append ⟨1⟩ [.long],
    .sameLocalsOneStack ⟨2⟩ .integer] := by
  decide +kernel

theorem loop_table : tableOf loop = some [.same ⟨0⟩] := by decide +kernel

/-- At the start of the loop nothing is known of the variable. -/
theorem loop_frames : framesOf loop = some ([some ⟨[.top], []⟩, some ⟨[.top], []⟩,
    some ⟨[.top], [.float]⟩, some ⟨[.float], []⟩], 1) := by
  decide +kernel

/-- A method that has a stack map got it with its metadata. -/
theorem tableOf_eq {m : Method} {table : List StackMapEntry} (h : tableOf m = some table) :
    ∃ m' c, withMetadata ⟨[]⟩ owner m = .ok m' ∧ m'.code = some c ∧ c.stackMap = some table := by
  rw [tableOf] at h
  cases hok : withMetadata ⟨[]⟩ owner m with
  | error e =>
    rw [hok] at h
    cases h
  | ok m' =>
    rw [hok] at h
    obtain ⟨_, hm', h⟩ := Option.bind_eq_some_iff.mp h
    cases hm'
    obtain ⟨c, hc, htable⟩ := Option.bind_eq_some_iff.mp h
    exact ⟨m', c, rfl, hc, htable⟩

/-- What is computed of the sample is what the analysis gives. -/
theorem framesOf_eq {m : Method} {frames : List (Option Frame)} {n : Nat}
    (h : framesOf m = some (frames, n)) :
    ∃ a, analyze ⟨[]⟩ owner m = .ok a ∧ a.frames = frames.toArray ∧ a.maxLocals = n := by
  rw [framesOf] at h
  cases hok : analyze ⟨[]⟩ owner m with
  | error e =>
    rw [hok] at h
    cases h
  | ok a =>
    rw [hok] at h
    cases h
    exact ⟨a, rfl, rfl, rfl⟩

end Joins

/-- Where the branches meet, the entry tells the wide local as one and the number on the stack. -/
theorem withMetadata_stackMap_meet : ∃ m' c a position f,
    withMetadata ⟨[]⟩ Joins.owner Joins.meet = .ok m' ∧ Joins.meet.code = some c ∧
      analyze ⟨[]⟩ Joins.owner Joins.meet = .ok a ∧ c.JoinsAt ⟨2⟩ position ∧
      a.frames.getD position none = some f ∧
      CompactFrame.Tells ⟨(CompactFrame.ofFrame (.entry Joins.owner Joins.meet.name
        Joins.meet.descriptor true a.maxLocals)).locals ++ [.long], [.integer]⟩ f := by
  obtain ⟨m', c', hok, hc', htable⟩ := Joins.tableOf_eq Joins.meet_table
  obtain ⟨c, a, table, hc, ha, rfl, -, hentry⟩ := withMetadata_stackMap hok
  have hbody := hc
  cases hc
  cases hc'
  obtain rfl := Option.some.inj htable
  -- nothing comes back to the first instruction, as no label stands there
  obtain ⟨points, -, hmem, htold⟩ := hentry (by
    rintro index via - hedge
    cases hedge with
    | jump _ _ htarget => cases htarget
    | handler hx => cases hx)
  obtain ⟨⟨position, l⟩, hpoint, hlabel, f, hf, htells⟩ := (mem_of_forall₂ htold).2 (⟨2⟩, _)
    (List.mem_cons_of_mem _ (List.mem_cons_of_mem _ (List.mem_cons_self ..)))
  cases hlabel
  exact ⟨_, _, a, position, f, hok, hbody, ha, (hmem _ _).mp hpoint, hf, htells⟩

/-- **A loop back to the first instruction.** The entry says that nothing has changed since method
entry, but the local that held the argument cannot be used any more where control comes back: read
from the frame on entry, the table does not tell the frames of the analysis. -/
theorem withMetadata_stackMap_loop : ∃ m' c a table,
    withMetadata ⟨[]⟩ Joins.owner Joins.loop = .ok m' ∧ Joins.loop.code = some c ∧
      analyze ⟨[]⟩ Joins.owner Joins.loop = .ok a ∧
      m'.code = some { c with
        maxStack := a.maxStack, maxLocals := a.maxLocals, stackMap := some table } ∧
      ¬ a.ToldBy c (.ofFrame (.entry Joins.owner Joins.loop.name Joins.loop.descriptor
        Joins.loop.isStatic a.maxLocals)) table := by
  obtain ⟨m', c', hok, hc', htable⟩ := Joins.tableOf_eq Joins.loop_table
  obtain ⟨a, ha, hframes, hlocals⟩ := Joins.framesOf_eq Joins.loop_frames
  obtain ⟨a', ha', hm⟩ := Except.bind_ok.mp hok
  obtain rfl : a = a' := Except.ok.inj (ha.symm.trans ha')
  obtain ⟨table, htable', hm⟩ := Except.bind_ok.mp hm
  cases hm
  cases hc'
  obtain rfl := Option.some.inj htable
  refine ⟨_, _, a, _, hok, rfl, ha, rfl, ?_⟩
  rintro ⟨points, -, hmem, htold⟩
  rw [hlocals] at htold
  obtain ⟨⟨position, l⟩, hpoint, hlabel, f, hf, htells⟩ := (mem_of_forall₂ htold).2 (⟨0⟩, _)
    (List.mem_cons_self ..)
  cases hlabel
  -- the label stands at the first instruction only, where the frame has lost the argument
  have hzero : position = 0 := by
    have hstands := ((hmem _ _).mp hpoint).stands
    match position with
    | 0 => rfl
    | 1 | 2 | 3 | n + 4 => cases hstands
  subst hzero
  rw [hframes] at hf
  cases hf
  have hlost := htells.locals
  cases hlost

end Resumption
