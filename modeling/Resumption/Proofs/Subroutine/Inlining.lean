import Resumption.Proofs.Subroutine.Ending
import Resumption.Proofs.Subroutine.Repeating

/-!
# Inlining keeps paths

Code with subroutines and what inlining makes of it have the same paths, as long as exceptions are
left aside and every subroutine that is called begins with its entry (`inline_traces`). The body of a
subroutine is copied in code order, right behind the placeholder, so if there is an instruction before
the entry, control comes to that one first (`inline_entry_last`).
-/

namespace Resumption.Subroutine

variable {σ : Type} {c d : Code}

/-- What inlining does if there is something to inline. -/
structure Inlined (c d : Code) (positions : LabelPositions) (ranges : List HandlerRange) (f : Output)
    (labels : List (Nat × Label)) (extras : List (List Handler)) : Prop where
  /-- where labels of the code are -/
  labelPositions : c.labelPositions = .ok positions
  /-- where handlers of the code are in force -/
  handlerRanges : c.handlerRanges = .ok ranges
  /-- the lines are written -/
  written : Source.Writes ⟨c, positions⟩ f
  /-- with further labels in between they are the result -/
  instructions : d.instructions.toList = (spread labels f.lines).map (·.instruction)
  /-- each handler has its copies behind it -/
  handlers : d.handlers = ((c.handlers.zip ranges).zip extras).flatMap fun x => x.1.1 :: x.2
  /-- the further labels are fresh -/
  fresh : labels.map (·.2) = (List.range' f.nextLabel.id labels.length).map Label.mk
  /-- a handler is copied once for each stretch -/
  repeats : List.Forall₂ (fun x extra => List.Forall₂ (Repeats f labels x.1)
    (stretches x.2 0 none f.lines) extra) (c.handlers.zip ranges) extras

/-- What the code is like that comes of an output. -/
theorem finish_inv {positions : LabelPositions} {f : Output}
    (hpositions : c.labelPositions = .ok positions) (hwritten : Source.Writes ⟨c, positions⟩ f)
    (h : finish c f = .ok d) :
    ∃ ranges labels extras, Inlined c d positions ranges f labels extras := by
  obtain ⟨ranges, hranges, h⟩ := Except.bind_ok.mp h
  cases h
  obtain ⟨extras, labels, hextends, hrepeats⟩ := repeatAll_spec f (c.handlers.zip ranges)
    { handlers := [], labels := [], nextLabel := f.nextLabel }
  have hlabels := hextends.labels_eq
  have hhandlers := hextends.handlers_eq
  rw [List.nil_append] at hlabels hhandlers
  refine ⟨ranges, labels, extras, hpositions, liftError_ok hranges, hwritten, ?_, hhandlers,
    hextends.fresh, hrepeats⟩
  simp only [Code.ofInstructions, hlabels]
  exact placeBefore_eq labels f.lines

theorem inline_inv (h : inline c = .ok d) :
    (∀ l, .jsr l ∉ c.instructions) ∧ d = c ∨
    ∃ positions ranges f labels extras, Inlined c d positions ranges f labels extras := by
  have hends := ends_inline c
  generalize inline c = r at h hends
  cases hends with
  | plain hnone =>
    cases h
    exact .inl ⟨hnone, rfl⟩
  | duplicate => cases h
  | @inlined _ positions r _ hpositions hlines =>
    obtain ⟨f, rfl, hfinish⟩ := Except.bind_ok.mp h
    have hwritten : Source.Writes ⟨c, positions⟩ f :=
      (Source.writes_inlines ⟨c, positions⟩).unique hlines
    obtain ⟨ranges, labels, extras, hinlined⟩ := finish_inv hpositions hwritten hfinish
    exact .inr ⟨positions, ranges, f, labels, extras, hinlined⟩

/-- The labels of the result are all different, so they can be found. -/
theorem Inlined.result {positions : LabelPositions} {ranges : List HandlerRange} {f : Output}
    {labels : List (Nat × Label)} {extras : List (List Handler)}
    (h : Inlined c d positions ranges f labels extras) (hbounded : Bounded c) :
    ∃ positions', Result ⟨c, positions⟩ f labels ⟨d, positions'⟩ := by
  obtain ⟨hnodup, hplaced⟩ := h.written.placed h.labelPositions hbounded
  obtain ⟨-, hnext, -⟩ := h.written.valid h.labelPositions
  have hfresh : ∀ x ∈ labels, f.nextLabel.id ≤ x.2.id := by
    intro x hx
    have hmem := List.mem_map_of_mem (f := Prod.snd) hx
    rw [h.fresh] at hmem
    obtain ⟨n, hn, hid⟩ := List.mem_map.mp hmem
    rw [← hid]
    exact (List.mem_range'_1.mp hn).1
  have hlabels : (labels.map (·.2)).Nodup := by
    rw [h.fresh]
    exact List.Nodup.map (fun _ _ => Label.mk.inj) List.nodup_range'
  have hknown : ∀ l ∈ f.placed, l.id < f.nextLabel.id := by
    intro l hl
    rcases hplaced l hl with ⟨index, hi⟩ | ⟨-, hlt⟩
    · refine (hbounded _ (Array.mem_toList_iff.mpr (Array.mem_of_getElem? hi)) l ?_).trans_le hnext
      simp [Code.labelsOf, Instruction.placed?]
    · exact hlt
  obtain ⟨positions', hpositions'⟩ := Code.labelPositions_of_nodup (c := d) <| by
    rw [h.instructions, List.filterMap_map]
    exact nodup_spread hnodup hlabels fun x hx hmem =>
      Nat.lt_irrefl _ ((hfresh x hx).trans_lt (hknown _ hmem))
  exact ⟨positions', h.labelPositions, hbounded, h.written, hfresh, h.instructions, hpositions'⟩

/-! ## Where lines come from -/

/-- A line is a fresh label or stands for an instruction: null for a `jsr`, a jump for a `ret`, and the
instruction itself with other labels for all else. -/
def Emitted.Presents (e : Emitted) (c : Code) : Prop :=
  match e.origin with
  | none => ∃ l, e.instruction = .label l ∧ .label l ∉ c.instructions
  | some index => ∃ i, c.instructions[index]? = some i ∧
    match i with
    | .jsr _ => e.instruction = .pushNull
    | .ret slot => e.instruction = .ret slot ∨ ∃ l, e.instruction = .goto l
    | i => ∃ names, e.instruction = i.mapLabels names

namespace Result

variable {s s' : Source} {f : Output} {labels : List (Nat × Label)} {place : Nat → Nat} {K : Scope}

/-- The line ends a copy, or was put for an instruction of some scope. -/
def Accounted (s : Source) (f : Output) (place : Nat → Nat) (p : Nat) : Prop :=
  (∃ l, f.lines[p]? = some ⟨.label l, none, none⟩) ∨
    ∃ K index i, Standing s f (s.whole place) K ∧ K.has index ∧
      s.code.instructions[index]? = some i ∧ K.place index = p

/-- All lines that are put for an instruction are accounted for, those of inner copies as well. -/
theorem accounted_between (hvalid : Valid s f K) (hK : Standing s f (s.whole place) K) {index : Nat}
    {i : Instruction} (hindex : K.has index) (hi : s.code.instructions[index]? = some i) {p : Nat}
    (hlower : K.place index ≤ p) (hupper : p < K.stop index) : Accounted s f place p := by
  induction hvalid generalizing index i with
  | @intro K sits child replaces inner ih =>
    by_cases hp : p = K.place index
    · exact .inr ⟨K, index, i, hK, hindex, hi, hp.symm⟩
    by_cases hjsr : ∃ l, i = .jsr l
    · obtain ⟨l, rfl⟩ := hjsr
      obtain ⟨header, hreplaces⟩ := replaces index l hindex hi
      obtain ⟨r, hstop, hdone⟩ := hreplaces.done
      by_cases hr : p = r
      · exact .inl ⟨_, hr ▸ hdone⟩
      · obtain ⟨j, hj, hlower', hupper'⟩ := hreplaces.tiles p (by omega) (by omega)
        obtain ⟨start, body, -, -, hbody, hhas, -⟩ := hreplaces.enters
        obtain ⟨i', hi'⟩ := (Source.body_isBody hbody).2.instructions j ((hhas j).mp hj)
        exact ih index l hindex hi (.inner hK hindex hi hreplaces (inner index l hindex hi)) hj hi'
          hlower' hupper'
    · have := (sits.line index i hindex hi fun l hl => hjsr ⟨l, hl⟩).1
      omega

/-- Every line is accounted for. -/
theorem accounted (hvalid : Valid s f (s.whole place)) (hfirst : place 0 = 0)
    (hlast : place s.code.instructions.size = f.lines.length) {p : Nat} (hp : p < f.lines.length) :
    Accounted s f place p := by
  obtain ⟨index, hindex, hlower, hupper⟩ := exists_between place (n := s.code.instructions.size)
    (r := p) (by omega) (by omega)
  have hhas : (s.whole place).has index := hindex.le
  exact accounted_between hvalid .whole hhas (Array.getElem?_eq_getElem hindex) hlower hupper

/-- Both begin at the same point. -/
theorem start {handlers : Handlers} (hfirst : place 0 = 0) (x : σ) :
    Stands s f labels handlers (s.whole place) ⟨0, [], x⟩ ⟨spot labels 0, [], x⟩ := by
  have hhas : (s.whole place).has 0 := Nat.zero_le _
  have hplace : (s.whole place).place 0 = 0 := hfirst
  have hstands : Stands s f labels handlers (s.whole place) ⟨0, (s.whole place).calls, x⟩
    ⟨spot labels ((s.whole place).place 0), [], x⟩ := .of_standing .whole hhas
  rwa [hplace] at hstands

/-- A label that ends a copy or is put in between is not in the code: there it would be placed
twice. -/
theorem not_mem_code (h : Result s f labels s') (hvalid : Valid s f (s.whole place)) {q : Nat}
    {l : Label} {copy : Option Nat}
    (hq : (spread labels f.lines)[q]? = some ⟨.label l, none, copy⟩) :
    .label l ∉ s.code.instructions := by
  intro hmem
  obtain ⟨j, hj, hl⟩ := Array.mem_iff_getElem.mp hmem
  have hl : s.code.instructions[j]? = some (.label l) := by rw [Array.getElem?_eq_getElem hj, hl]
  have hline := ((child hvalid .whole).1.line j _ hj.le hl (by simp)).2
  have hfound := h.find hline
  have hfound' : s'.positions.find l = .ok q := by
    refine (Code.find_iff h.positions').mpr ?_
    rw [h.getElem?, hq]
    rfl
  cases hfound.symm.trans hfound'
  rw [spread_spot labels (List.getElem?_eq_some_iff.mp hline).1.le, hline] at hq
  cases hq

/-- **Every line** of the result presents an instruction of the code or is a fresh label. -/
theorem presents (h : Result s f labels s') (hvalid : Valid s f (s.whole place))
    (hfirst : place 0 = 0) (hlast : place s.code.instructions.size = f.lines.length) {e : Emitted}
    (he : e ∈ spread labels f.lines) : e.Presents s.code := by
  obtain ⟨q, hq⟩ := List.mem_iff_getElem?.mp he
  rcases spread_cases labels hq with ⟨p, rfl, hp⟩ | ⟨p, j, hp, rfl, hj⟩
  · rcases accounted hvalid hfirst hlast (List.getElem?_eq_some_iff.mp hp).1 with
      ⟨l, hl⟩ | ⟨K, index, i, hK, hindex, hi, rfl⟩
    · cases hp.symm.trans hl
      exact ⟨l, rfl, h.not_mem_code hvalid hq⟩
    · obtain ⟨sits, hchild⟩ := child hvalid hK
      by_cases hjsr : ∃ l, i = .jsr l
      · obtain ⟨l, rfl⟩ := hjsr
        obtain ⟨header, K', hreplaces, -⟩ := hchild index l hindex hi
        cases hp.symm.trans hreplaces.placeholder
        exact ⟨_, hi, rfl⟩
      · have hline := (sits.line index i hindex hi fun l hl => hjsr ⟨l, hl⟩).2
        cases hp.symm.trans hline
        rw [Emitted.Presents, line_origin]
        refine ⟨i, hi, ?_⟩
        by_cases hret : ∃ slot, i = .ret slot
        · obtain ⟨slot, rfl⟩ := hret
          cases K.header with
          | none => exact .inl rfl
          | some header => exact .inr ⟨_, rfl⟩
        · have hline := line_instruction (fun slot hslot => hret ⟨slot, hslot⟩) K.header index
          split
          · exact absurd ⟨_, rfl⟩ hjsr
          · exact absurd ⟨_, rfl⟩ hret
          · exact ⟨_, hline⟩
  · obtain ⟨l, -, rfl⟩ := mem_marksAt.mp (List.mem_of_getElem? hj)
    exact ⟨l, rfl, h.not_mem_code hvalid hq⟩

end Result

/-- The lines of code that is left as it is. -/
def plainLines (c : Code) : List Emitted :=
  c.instructions.toList.zipIdx.map fun x => ⟨x.1, some x.2, none⟩

theorem instruction_plainLines : (plainLines c).map Emitted.instruction = c.instructions.toList := by
  rw [plainLines, List.map_map]
  exact List.zipIdx_map_fst 0 _

/-- A line of such code comes from the instruction at its place. -/
theorem origin_plainLines {q : Nat} {e : Emitted} (h : (plainLines c)[q]? = some e) :
    e.origin = some q := by
  rw [plainLines, List.getElem?_map, Option.map_eq_some_iff] at h
  obtain ⟨x, hx, rfl⟩ := h
  rw [List.getElem?_zipIdx, Option.map_eq_some_iff] at hx
  obtain ⟨i, -, rfl⟩ := hx
  exact congrArg some (Nat.zero_add q)

/-- Code without calls presents itself. -/
theorem presents_plainLines (hc : ∀ l, .jsr l ∉ c.instructions) : ∀ e ∈ plainLines c, e.Presents c := by
  intro e he
  obtain ⟨⟨i, index⟩, hx, rfl⟩ := List.mem_map.mp he
  have hi : c.instructions[index]? = some i := by simpa using List.mem_zipIdx_iff_getElem?.mp hx
  refine ⟨i, hi, ?_⟩
  split
  · exact absurd (Array.mem_of_getElem? hi) (hc _)
  · exact .inl rfl
  · exact ⟨id, (mapLabels_id _).symm⟩

theorem seeOrigin_plainLines (positions : LabelPositions) :
    seeOrigin (σ := σ) ⟨c, positions⟩ (plainLines c) = Source.see ⟨c, positions⟩ := by
  funext a
  cases hi : c.instructions[a.index]? with
  | none => simp [seeOrigin, plainLines, Source.see, Source.shown, hi]
  | some i => simp [seeOrigin, plainLines, Source.see, hi]

/-- **Inlining keeps paths.** Let the labels of the code be placed once and be below its next label,
and let every subroutine that is called begin with its entry. Then the labels of the result are placed
once, each of its lines presents an instruction of the code or is a fresh label, and apart from
exceptions it has the paths that the code has, with the same depth of the stack on the way. Calls,
returns and fresh labels are not seen. -/
theorem inline_traces {positions : LabelPositions} (h : inline c = .ok d)
    (hpositions : c.labelPositions = .ok positions) (hbounded : Bounded c)
    (hfirst : EntryFirst ⟨c, positions⟩) : ∃ positions' lines,
      d.labelPositions = .ok positions' ∧ d.instructions.toList = lines.map Emitted.instruction ∧
      (∀ e ∈ lines, e.Presents c) ∧
      ∀ seen, Traces (Source.Next ⟨c, positions⟩ (fun _ => []) depth) (Source.see ⟨c, positions⟩)
          ⟨0, [], 0⟩ seen ↔
        Traces (Source.Next ⟨d, positions'⟩ (fun _ => []) depth) (seeOrigin ⟨c, positions⟩ lines)
          ⟨0, [], 0⟩ seen := by
  rcases inline_inv h with ⟨hnone, rfl⟩ | ⟨positions₀, ranges, f, labels, extras, hinlined⟩
  · refine ⟨positions, plainLines d, hpositions, instruction_plainLines.symm,
      presents_plainLines hnone, fun seen => ?_⟩
    rw [seeOrigin_plainLines]
  · cases hpositions.symm.trans hinlined.labelPositions
    obtain ⟨positions', hresult⟩ := hinlined.result hbounded
    obtain ⟨place, -, hstart, hlast, -, hvalid⟩ := hinlined.written.valid hpositions
    refine ⟨positions', spread labels f.lines, hresult.positions', hinlined.instructions,
      fun e he => hresult.presents hvalid hstart hlast he, fun seen => ?_⟩
    have hcorr : Corresponding ⟨c, positions⟩ f labels (Source.whole ⟨c, positions⟩ place)
      (fun _ => []) fun _ => [] := fun _ _ _ _ _ _ _ => .nil
    have hmatching := hresult.matching depth_blind hfirst hvalid hcorr
    exact hmatching.traces_iff (hresult.toward depth_blind (Nat.zero_le _) (Result.start hstart 0)) seen

/-! ## A subroutine with its entry first, and one without -/

namespace Cleanup

/-- Code of a method without arguments. -/
def codeOf (instructions : List Instruction) (handlers : List Handler) : Code :=
  { Code.ofInstructions instructions handlers with maxLocals := 3, maxStack := 4 }

/-- Calls a subroutine from two places; it calls another one on its way. -/
def twice : Code := codeOf [.jsr ⟨0⟩, .jsr ⟨0⟩, .returnVoid, .label ⟨0⟩, .store .object 1, .jsr ⟨1⟩,
  .ret 1, .label ⟨1⟩, .store .object 2, .pushInt 1, .ifZero .eq ⟨2⟩, .label ⟨2⟩, .ret 2] []

/-- Calls a subroutine that goes on before its entry. -/
def backward : Code := codeOf [.jsr ⟨1⟩, .returnVoid, .label ⟨0⟩, .ret 1, .label ⟨1⟩, .store .object 1,
  .goto ⟨0⟩] []

/-- The lines that come of it. -/
def backwardLines : List Emitted := [⟨.pushNull, some 0, some 0⟩, ⟨.label ⟨2⟩, some 2, some 0⟩,
  ⟨.goto ⟨4⟩, some 3, some 0⟩, ⟨.label ⟨3⟩, some 4, some 0⟩, ⟨.store .object 1, some 5, some 0⟩,
  ⟨.goto ⟨2⟩, some 6, some 0⟩, ⟨.label ⟨4⟩, none, none⟩, ⟨.returnVoid, some 1, none⟩,
  ⟨.label ⟨0⟩, some 2, none⟩, ⟨.ret 1, some 3, none⟩, ⟨.label ⟨1⟩, some 4, none⟩,
  ⟨.store .object 1, some 5, none⟩, ⟨.goto ⟨0⟩, some 6, none⟩]

end Cleanup

open Cleanup in
/-- Two copies of a subroutine, each with a copy of the other one in it. -/
theorem inline_traces_twice : ∃ d positions positions' lines, inline twice = .ok d ∧
    twice.labelPositions = .ok positions ∧ Bounded twice ∧ EntryFirst ⟨twice, positions⟩ ∧
    d.labelPositions = .ok positions' ∧ d.instructions.toList = lines.map Emitted.instruction ∧
    (∀ e ∈ lines, e.Presents twice) ∧
    ∀ seen, Traces (Source.Next ⟨twice, positions⟩ (fun _ => []) depth)
        (Source.see ⟨twice, positions⟩) ⟨0, [], 0⟩ seen ↔
      Traces (Source.Next ⟨d, positions'⟩ (fun _ => []) depth) (seeOrigin ⟨twice, positions⟩ lines)
        ⟨0, [], 0⟩ seen := by
  have hpositions : twice.labelPositions = .ok [(⟨2⟩, 11), (⟨1⟩, 7), (⟨0⟩, 3)] := by rfl
  have hbounded : Bounded twice := by decide
  have hfirst : EntryFirst ⟨twice, [(⟨2⟩, 11), (⟨1⟩, 7), (⟨0⟩, 3)]⟩ := by decide +kernel
  have hok : (inline twice).toOption.isSome = true := by decide +kernel
  cases hinline : inline twice with
  | error e =>
    rw [hinline] at hok
    cases hok
  | ok d =>
    obtain ⟨positions', lines, h⟩ := inline_traces hinline hpositions hbounded hfirst
    exact ⟨d, _, positions', lines, rfl, hpositions, hbounded, hfirst, h⟩

open Cleanup in
/-- The code comes by the entry of the subroutine first, the result by what lies before it. -/
theorem inline_traces_backward : ∃ d positions positions', inline backward = .ok d ∧
    backward.labelPositions = .ok positions ∧ Bounded backward ∧
    d.labelPositions = .ok positions' ∧ d.instructions.toList = backwardLines.map (·.instruction) ∧
    (∀ e ∈ backwardLines, e.Presents backward) ∧
    ∃ seen, Traces (Source.Next ⟨backward, positions⟩ (fun _ => []) depth)
        (Source.see ⟨backward, positions⟩) ⟨0, [], 0⟩ seen ∧
      ¬ Traces (Source.Next ⟨d, positions'⟩ (fun _ => []) depth)
        (seeOrigin ⟨backward, positions⟩ backwardLines) ⟨0, [], 0⟩ seen := by
  have hpositions : backward.labelPositions = .ok [(⟨1⟩, 4), (⟨0⟩, 2)] := by rfl
  have hd : inline backward = .ok
      { codeOf (backwardLines.map (·.instruction)) [] with maxLocals := 3, maxStack := 0 } := by
    decide +kernel
  have hpush : depth.run .pushNull 0 1 := ⟨default, 0, ⟨[], []⟩, ⟨[], [.null]⟩, rfl, rfl, rfl⟩
  refine ⟨_, _, [(⟨1⟩, 10), (⟨0⟩, 8), (⟨4⟩, 6), (⟨3⟩, 3), (⟨2⟩, 1)], hd, hpositions, by decide, rfl,
    rfl, ?_, [(4, 1)], ?_, ?_⟩
  · simp only [backwardLines, List.forall_mem_cons, List.not_mem_nil, false_implies, implies_true]
    exact ⟨⟨_, rfl, rfl⟩, ⟨_, rfl, fun _ => ⟨2⟩, rfl⟩, ⟨_, rfl, .inr ⟨_, rfl⟩⟩,
      ⟨_, rfl, fun _ => ⟨3⟩, rfl⟩, ⟨_, rfl, id, rfl⟩, ⟨_, rfl, fun _ => ⟨2⟩, rfl⟩,
      ⟨_, rfl, by decide +kernel⟩, ⟨_, rfl, id, rfl⟩, ⟨_, rfl, id, rfl⟩, ⟨_, rfl, .inl rfl⟩,
      ⟨_, rfl, id, rfl⟩, ⟨_, rfl, id, rfl⟩, ⟨_, rfl, id, rfl⟩, trivial⟩
  · have hrest : Traces (Source.Next ⟨backward, [(⟨1⟩, 4), (⟨0⟩, 2)]⟩ (fun _ => []) depth)
        (Source.see ⟨backward, [(⟨1⟩, 4), (⟨0⟩, 2)]⟩) ⟨4, [⟨1, 1⟩], 1⟩ [(4, 1)] := .here _
    exact .step (.enters rfl rfl rfl hpush) hrest
  · intro htraces
    -- the placeholder is not seen, and after it there is the label before the entry
    rcases htraces.inv with hseen | hseen | ⟨a, rest, hnext, hrest, hseen⟩
    · cases hseen
    · cases hseen
    · rcases (Source.next_iff (i := .pushNull) rfl (by simp) (by simp)).mp hnext with
        ⟨y, -, ⟨-, rfl⟩ | ⟨l, hl, -⟩⟩ | ⟨-, _, -, _, hhandler, -⟩
      · rcases hrest.inv with rfl | rfl | ⟨_, _, -, -, rfl⟩
        · cases hseen
        · cases hseen
        · cases hseen
      · cases hl
      · cases hhandler

end Resumption.Subroutine
