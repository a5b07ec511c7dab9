import Resumption.Proofs.Subroutine.Inlining

/-!
# Inlining and exceptions

A handler of the code covers in the result what was put for the lines that it covers, whole copies
included; it is repeated for lines of copies that come from lines that it covers. So inlining keeps
handlers (`inline_handlers`) if no `jsr` is covered and no handler leads out of a subroutine to a `ret`.
A handler around a `jsr` catches what the copy throws, although it did not cover the subroutine
(`inline_handlers_around`).
-/

namespace Resumption.Subroutine

variable {σ : Type} {c d : Code}

/-- What the handler catches and where it begins, if it covers the position. -/
def catching (positions : LabelPositions) (position : Nat) (handler : Handler) :
    Option (Option ClassName × Nat) :=
  match Code.resolve positions handler with
  | .ok range => if range.covers position then some (handler.caught, range.entry) else none
  | .error _ => none

/-- The handlers of the code that cover a position. -/
def handlersAt (s : Source) : Handlers := fun position =>
  s.code.handlers.filterMap (catching s.positions position)

theorem catching_of_resolve {positions : LabelPositions} {handler : Handler} {range : HandlerRange}
    (h : Code.resolve positions handler = .ok range) (position : Nat) :
    catching positions position handler =
      if range.covers position then some (handler.caught, range.entry) else none := by
  rw [catching, h]

/-- Where the calls are. -/
def Source.calls (s : Source) : List Nat :=
  s.code.instructions.toList.zipIdx.filterMap fun x =>
    match x.1 with
    | .jsr _ => some x.2
    | _ => none

theorem Source.mem_calls {s : Source} {index : Nat} {l : Label}
    (hi : s.code.instructions[index]? = some (.jsr l)) : index ∈ s.calls :=
  List.mem_filterMap.mpr ⟨(.jsr l, index), List.mem_zipIdx_iff_getElem?.mpr (by simpa using hi), rfl⟩

/-- Is no call covered? -/
def Uncovered (s : Source) (ranges : List HandlerRange) : Prop :=
  ∀ range ∈ ranges, ∀ index ∈ s.calls, range.covers index = false

instance (s : Source) (ranges : List HandlerRange) : Decidable (Uncovered s ranges) :=
  inferInstanceAs (Decidable (∀ range ∈ ranges, ∀ index ∈ s.calls, range.covers index = false))

/-- A handler that covers an instruction of a subroutine that is called begins in the subroutine, or
control comes to no `ret` from there. -/
def Enclosed (s : Source) (ranges : List HandlerRange) : Prop :=
  ∀ x ∈ s.subroutines, ∀ range ∈ ranges, ∀ j ∈ x.2, range.covers j = true →
    range.entry ∈ x.2 ∨ s.Abandons (handlersAt s) range.entry

/-! ## Handlers of the code -/

namespace Result

variable {s s' : Source} {f : Output} {labels : List (Nat × Label)} {place : Nat → Nat} {K : Scope}

/-- Every copy is put for some `jsr` of the code. -/
theorem inside_jsr (hK : Standing s f (s.whole place) K) :
    K = s.whole place ∨ ∃ header call l, K.header = some header ∧
      s.code.instructions[call]? = some (.jsr l) ∧
      ∀ j, K.has j → place call < K.place j ∧ K.place j ≤ K.stop j ∧ K.stop j < place (call + 1) := by
  induction hK with
  | whole => exact .inl rfl
  | inner outer hindex hl hreplaces _ ih =>
    refine .inr ?_
    rcases ih with rfl | ⟨-, call, l', -, hl', hinside⟩
    · exact ⟨_, _, _, hreplaces.copied, hl, hreplaces.inside⟩
    · refine ⟨_, call, l', hreplaces.copied, hl', fun j hj => ?_⟩
      have houter := hinside _ hindex
      have hinner := hreplaces.inside j hj
      omega

/-- Something is put for every instruction. -/
theorem place_lt (hvalid : Valid s f (s.whole place)) {index : Nat} {i : Instruction}
    (hi : s.code.instructions[index]? = some i) : place index < place (index + 1) := by
  obtain ⟨sits, hchild⟩ := child hvalid .whole
  have hindex : (s.whole place).has index := (Array.getElem?_eq_some_iff.mp hi).1.le
  by_cases hjsr : ∃ l, i = .jsr l
  · obtain ⟨l, rfl⟩ := hjsr
    obtain ⟨header, K', hreplaces, -⟩ := hchild index l hindex hi
    obtain ⟨start, body, -, -, hbody, hhas, -⟩ := hreplaces.enters
    have hinside := hreplaces.inside start ((hhas start).mpr (Source.body_isBody hbody).1)
    exact (hinside.1.trans_le hinside.2.1).trans hinside.2.2
  · have hstop := (sits.line index i hindex hi fun l hl => hjsr ⟨l, hl⟩).1
    exact Nat.lt_of_succ_le hstop.ge

/-- A handler of the code is found again. -/
theorem resolve_original (h : Result s f labels s') (hvalid : Valid s f (s.whole place))
    {handler : Handler} {range : HandlerRange}
    (hrange : Code.resolve s.positions handler = .ok range) :
    Code.resolve s'.positions handler = .ok ⟨spot labels (place range.start),
      spot labels (place range.stop), spot labels (place range.entry)⟩ := by
  obtain ⟨hstart, hstop, hentry⟩ := Code.resolve_ok.mp hrange
  have hfind : ∀ {l j}, s.positions.find l = .ok j →
      s'.positions.find l = .ok (spot labels (place j)) := by
    intro l j hj
    have hhas : (s.whole place).has j :=
      (Array.getElem?_eq_some_iff.mp ((Code.find_iff h.positions).mp hj)).1.le
    exact h.find_naming (child hvalid .whole).1 hhas hj
  exact Code.resolve_ok.mpr ⟨hfind hstart, hfind hstop, hfind hentry⟩

/-- A handler of the code covers what is put for the lines that it covers. -/
theorem catching_original (h : Result s f labels s') (hvalid : Valid s f (s.whole place))
    (hmono : ∀ j k, j ≤ k → k ≤ s.code.instructions.size → place j ≤ place k) {handler : Handler}
    {range : HandlerRange} (hrange : Code.resolve s.positions handler = .ok range) {index p : Nat}
    (hindex : index < s.code.instructions.size) (hlower : place index ≤ p)
    (hupper : p < place (index + 1)) :
    catching s'.positions (spot labels p) handler =
      if range.covers index then some (handler.caught, spot labels (place range.entry)) else none := by
  obtain ⟨hstart, hstop, -⟩ := Code.resolve_ok.mp hrange
  have hsize : ∀ {l j}, s.positions.find l = .ok j → j ≤ s.code.instructions.size := fun hj =>
    (Array.getElem?_eq_some_iff.mp ((Code.find_iff h.positions).mp hj)).1.le
  have hcovers : HandlerRange.covers ⟨spot labels (place range.start), spot labels (place range.stop),
      spot labels (place range.entry)⟩ (spot labels p) = range.covers index := by
    simp only [HandlerRange.covers, (spot_strictMono labels).le_iff_le,
      (spot_strictMono labels).lt_iff_lt]
    have hbefore : place range.start ≤ p ↔ range.start ≤ index := by
      constructor
      · intro hle
        by_contra hlt
        have := hmono (index + 1) range.start (by omega) (hsize hstart)
        omega
      · intro hle
        exact (hmono range.start index hle hindex.le).trans hlower
    have hafter : p < place range.stop ↔ index < range.stop := by
      constructor
      · intro hlt
        by_contra hle
        have := hmono range.stop index (by omega) hindex.le
        omega
      · intro hlt
        exact hupper.trans_le (hmono (index + 1) range.stop hlt (hsize hstop))
    rw [decide_eq_decide.mpr hbefore, decide_eq_decide.mpr hafter]
  rw [catching_of_resolve (h.resolve_original hvalid hrange), hcovers]

/-! ## Repeated handlers -/

/-- A label in front of a line is found there. -/
theorem find_mark (h : Result s f labels s') {p : Nat} {l : Label} (hl : (p, l) ∈ labels)
    (hp : p ≤ f.lines.length) :
    ∃ q, s'.positions.find l = .ok q ∧ block labels p ≤ q ∧ q < spot labels p := by
  have hmark : (⟨.label l, none, none⟩ : Emitted) ∈ marksAt labels p := mem_marksAt.mpr ⟨l, hl, rfl⟩
  obtain ⟨j, hj⟩ := List.mem_iff_getElem?.mp hmark
  have hlt : j < (marksAt labels p).length := (List.getElem?_eq_some_iff.mp hj).1
  refine ⟨block labels p + j, (Code.find_iff h.positions').mpr ?_, Nat.le_add_right ..,
    Nat.add_lt_add_left hlt _⟩
  rw [h.getElem?, spread_mark labels hp hlt, hj]
  rfl

/-- Where the handler begins in a copy. -/
def entryIn (s' : Source) (f : Output) (handler : Handler) (copy : Nat) :
    Option (Option ClassName × Nat) :=
  match s'.positions.find (renamed (f.copies.getD copy []) handler.entry) with
  | .ok entry => some (handler.caught, entry)
  | .error _ => none

/-- A repeated handler covers the lines of its stretch. -/
theorem catching_repeated (h : Result s f labels s') {handler handler' : Handler} {stretch : Stretch}
    (hrepeats : Repeats f labels handler stretch handler') (hstart : stretch.start ≤ f.lines.length)
    (hstop : stretch.stop ≤ f.lines.length) (p : Nat) :
    catching s'.positions (spot labels p) handler' =
      if stretch.has p then entryIn s' f handler stretch.copy else none := by
  obtain ⟨start, hfstart, hlower, hupper⟩ := h.find_mark hrepeats.start hstart
  obtain ⟨stop, hfstop, hlower', hupper'⟩ := h.find_mark hrepeats.stop hstop
  -- labels in front of a line are between the line before and the line
  have hbetween : ∀ {k q}, block labels k ≤ q → q < spot labels k →
      (q ≤ spot labels p ↔ k ≤ p) := by
    intro k q hq hq'
    constructor
    · intro hle
      by_contra hlt
      have := (block_strictMono labels).monotone (show p + 1 ≤ k by omega)
      rw [block_succ] at this
      omega
    · intro hle
      exact hq'.le.trans ((spot_strictMono labels).monotone hle)
  cases hentry : s'.positions.find handler'.entry with
  | error e =>
    have hresolve : Code.resolve s'.positions handler' = .error e := by
      rw [Code.resolve, hfstart, hfstop, hentry]
      rfl
    rw [catching, hresolve, entryIn, ← hrepeats.entry, hentry]
    simp
  | ok entry =>
    have hresolve : Code.resolve s'.positions handler' = .ok ⟨start, stop, entry⟩ :=
      Code.resolve_ok.mpr ⟨hfstart, hfstop, hentry⟩
    have hcovers : HandlerRange.covers ⟨start, stop, entry⟩ (spot labels p) = stretch.has p := by
      have hafter : spot labels p < stop ↔ p < stretch.stop := by
        rw [← Nat.not_le, hbetween hlower' hupper', Nat.not_le]
      simp only [HandlerRange.covers, Stretch.has]
      rw [decide_eq_decide.mpr (hbetween hlower hupper), decide_eq_decide.mpr hafter]
    rw [catching_of_resolve hresolve, entryIn, ← hrepeats.entry, hentry, hcovers, hrepeats.caught]

/-- The repeated handlers that cover a line are those of its copy. -/
theorem filterMap_repeated (h : Result s f labels s') {handler : Handler} {pieces : List Stretch}
    {extra : List Handler} (hrepeats : List.Forall₂ (Repeats f labels handler) pieces extra)
    (hpieces : ∀ stretch ∈ pieces, stretch.start ≤ f.lines.length ∧ stretch.stop ≤ f.lines.length)
    (p : Nat) : extra.filterMap (catching s'.positions (spot labels p)) =
      (copiesAt p pieces).filterMap (entryIn s' f handler) := by
  induction hrepeats with
  | nil => rfl
  | @cons stretch handler' pieces extra hfirst _ ih =>
    obtain ⟨⟨hstart, hstop⟩, hrest⟩ := List.forall_mem_cons.mp hpieces
    rw [copiesAt_cons, List.filterMap_append, ← ih hrest, List.filterMap_cons,
      h.catching_repeated hfirst hstart hstop]
    by_cases hhas : stretch.has p
    · cases hentry : entryIn s' f handler stretch.copy <;> simp [hhas, hentry]
    · simp [hhas]

/-! ## Handlers correspond to one another -/

/-- A handler is repeated for the lines of a copy that come from lines that it covers. -/
theorem copiesAt_place (hvalid : Valid s f (s.whole place)) {ranges : List HandlerRange}
    (huncovered : Uncovered s ranges) {range : HandlerRange} (hmem : range ∈ ranges)
    (hK : Standing s f (s.whole place) K) {index : Nat} {i : Instruction} (hindex : K.has index)
    (hi : s.code.instructions[index]? = some i) :
    copiesAt (K.place index) (stretches range 0 none f.lines) =
      if range.covers index then (K.header.map (·.copy)).toList else [] := by
  have hline : ∀ e, f.lines[K.place index]? = some e →
      copiesAt (K.place index) (stretches range 0 none f.lines) = (coveredCopy? range e).toList := by
    intro e he
    rw [copiesAt_stretches range f.lines (by simp)]
    simp [he]
  obtain ⟨hsits, hchild⟩ := child hvalid hK
  by_cases hjsr : ∃ l, i = .jsr l
  · obtain ⟨l, rfl⟩ := hjsr
    obtain ⟨header, K', hreplaces, -⟩ := hchild index l hindex hi
    have hnot := huncovered range hmem index (Source.mem_calls hi)
    rw [hline _ hreplaces.placeholder]
    simp [coveredCopy?, hnot]
  · rw [hline _ (hsits.line index i hindex hi fun l hl => hjsr ⟨l, hl⟩).2]
    cases K.header with
    | none => simp [line, coveredCopy?]
    | some header => by_cases hcovers : range.covers index <;> simp [line, coveredCopy?, hcovers]

/-- The handlers of the code do not cover copies if they do not cover calls. -/
theorem catching_place (h : Result s f labels s') (hvalid : Valid s f (s.whole place))
    (hmono : ∀ j k, j ≤ k → k ≤ s.code.instructions.size → place j ≤ place k)
    {ranges : List HandlerRange} (huncovered : Uncovered s ranges) {handler : Handler}
    {range : HandlerRange} (hmem : range ∈ ranges)
    (hrange : Code.resolve s.positions handler = .ok range)
    (hK : Standing s f (s.whole place) K) {index : Nat} {i : Instruction} (hindex : K.has index)
    (hi : s.code.instructions[index]? = some i) :
    catching s'.positions (spot labels (K.place index)) handler =
      if K.header.isNone && range.covers index then
        some (handler.caught, spot labels (K.place range.entry)) else none := by
  have hsize : ∀ {j i}, s.code.instructions[j]? = some i → j < s.code.instructions.size :=
    fun hj => (Array.getElem?_eq_some_iff.mp hj).1
  rcases inside_jsr hK with rfl | ⟨header, call, l, hcopied, hl, hinside⟩
  · have hplace := h.catching_original hvalid hmono hrange (hsize hi) (Nat.le_refl _)
      (place_lt hvalid hi)
    simpa [Source.whole] using hplace
  · obtain ⟨hlower, hle, hupper⟩ := hinside index hindex
    rw [h.catching_original hvalid hmono hrange (hsize hl) hlower.le (hle.trans_lt hupper),
      huncovered range hmem call (Source.mem_calls hl)]
    simp [hcopied]

/-- A handler that covers an instruction of a copy begins in the copy, or outside of all copies where
no call is missed. -/
theorem find_entry (h : Result s f labels s') (hvalid : Valid s f (s.whole place))
    {ranges : List HandlerRange} (henclosed : Enclosed s ranges) {handler : Handler}
    {range : HandlerRange} (hmem : range ∈ ranges)
    (hrange : Code.resolve s.positions handler = .ok range)
    (hK : Standing s f (s.whole place) K) {header : Header} (hheader : K.header = some header)
    {index : Nat} (hindex : K.has index) (hcovers : range.covers index = true) :
    ∃ q, s'.positions.find (renamed (f.copies.getD header.copy []) handler.entry) = .ok q ∧
      Meets s labels (handlersAt s) (s.whole place) K range.entry q := by
  have hsits := (child hvalid hK).1
  have hentry := (Code.resolve_ok.mp hrange).2.2
  cases hK with
  | whole => cases hheader
  | @inner _ _ header' call l _ _ hl hreplaces _ =>
    obtain rfl := Option.some.inj (hreplaces.copied.symm.trans hheader)
    obtain ⟨start, body, hstart, -, hbody, hhas, -⟩ := hreplaces.enters
    have hcopies : f.copies.getD header'.copy [] = header'.names := by
      rw [List.getD_eq_getElem?_getD, hreplaces.copy]
      rfl
    rw [hcopies]
    by_cases hcopied : K.has range.entry
    · have hfind := h.find_naming hsits hcopied hentry
      rw [hheader, naming] at hfind
      exact ⟨_, hfind, .inl ⟨hcopied, rfl⟩⟩
    · -- the label keeps its name, since it is placed once, and not in the body
      have hname : renamed header'.names handler.entry = handler.entry := by
        refine hreplaces.named _ fun j hj hlabel => hcopied ?_
        cases hentry.symm.trans ((Code.find_iff h.positions).mpr hlabel)
        exact hj
      have hwhole : (s.whole place).has range.entry :=
        (Array.getElem?_eq_some_iff.mp ((Code.find_iff h.positions).mp hentry)).1.le
      have habandons := (henclosed _ (Source.mem_subroutines hl hstart hbody) range hmem index
        ((hhas index).mp hindex) hcovers).resolve_left fun hmem => hcopied ((hhas _).mpr hmem)
      rw [hname]
      exact ⟨_, h.find_naming (child hvalid .whole).1 hwhole hentry, .inr ⟨habandons, hwhole, rfl⟩⟩

/-- A handler catches the same in the code and, with those that repeat it, in the result. -/
theorem handler_corresponds (h : Result s f labels s') (hvalid : Valid s f (s.whole place))
    (hmono : ∀ j k, j ≤ k → k ≤ s.code.instructions.size → place j ≤ place k)
    {ranges : List HandlerRange} (huncovered : Uncovered s ranges) (henclosed : Enclosed s ranges)
    {handler : Handler} {range : HandlerRange} (hmem : range ∈ ranges)
    (hrange : Code.resolve s.positions handler = .ok range) {extra : List Handler}
    (hrepeats : List.Forall₂ (Repeats f labels handler) (stretches range 0 none f.lines) extra)
    (hK : Standing s f (s.whole place) K) {index : Nat} {i : Instruction} (hindex : K.has index)
    (hi : s.code.instructions[index]? = some i) :
    List.Forall₂ (fun x y => y.1 = x.1 ∧
        Meets s labels (handlersAt s) (s.whole place) K x.2 y.2)
      (catching s.positions index handler).toList
      ((handler :: extra).filterMap (catching s'.positions (spot labels (K.place index)))) := by
  have hbounded : ∀ stretch ∈ stretches range 0 none f.lines,
      stretch.start ≤ f.lines.length ∧ stretch.stop ≤ f.lines.length := by
    intro stretch hstretch
    have := stretches_bounded range f.lines (by simp) stretch hstretch
    omega
  rw [catching_of_resolve hrange, List.filterMap_cons, h.filterMap_repeated hrepeats hbounded,
    h.catching_place hvalid hmono huncovered hmem hrange hK hindex hi,
    copiesAt_place hvalid huncovered hmem hK hindex hi]
  by_cases hcovers : range.covers index
  · cases hheader : K.header with
    | none =>
      obtain rfl : K = s.whole place := by
        cases hK with
        | whole => rfl
        | inner _ _ _ hreplaces _ => cases hreplaces.copied.symm.trans hheader
      have hhas : (s.whole place).has range.entry := (Array.getElem?_eq_some_iff.mp
        ((Code.find_iff h.positions).mp (Code.resolve_ok.mp hrange).2.2)).1.le
      simp only [hcovers, Option.isNone_none, Bool.and_self, if_true, Option.map_none,
        Option.toList_none, List.filterMap_nil, Option.toList_some]
      exact .cons ⟨rfl, .inl ⟨hhas, rfl⟩⟩ .nil
    | some header =>
      obtain ⟨q, hfind, hmeets⟩ :=
        h.find_entry hvalid henclosed hmem hrange hK hheader hindex hcovers
      simp only [hcovers, Option.isNone_some, Bool.false_and, Bool.false_eq_true, if_false, if_true,
        Option.map_some, Option.toList_some, List.filterMap_cons, entryIn, hfind, List.filterMap_nil]
      exact .cons ⟨rfl, hmeets⟩ .nil
  · simp [hcovers]

/-- **Handlers.** If no call is covered and no handler leads out of a subroutine to a `ret`, the
handlers that cover an instruction and what is put for it correspond to one another. -/
theorem corresponding (h : Result s f labels s') (hvalid : Valid s f (s.whole place))
    (hmono : ∀ j k, j ≤ k → k ≤ s.code.instructions.size → place j ≤ place k)
    {ranges : List HandlerRange} (huncovered : Uncovered s ranges) (henclosed : Enclosed s ranges)
    (hranges : List.Forall₂ (fun handler range => Code.resolve s.positions handler = .ok range)
      s.code.handlers ranges) {extras : List (List Handler)}
    (hrepeats : List.Forall₂ (fun x extra => List.Forall₂ (Repeats f labels x.1)
      (stretches x.2 0 none f.lines) extra) (s.code.handlers.zip ranges) extras)
    (hhandlers : s'.code.handlers =
      ((s.code.handlers.zip ranges).zip extras).flatMap fun x => x.1.1 :: x.2) :
    Corresponding s f labels (s.whole place) (handlersAt s) (handlersAt s') := by
  intro K hK index i hindex hi _
  -- one handler after the other, each with those that repeat it
  have hall : ∀ {handlers : List Handler} {ranges' : List HandlerRange} {extras : List (List Handler)},
      List.Forall₂ (fun handler range => Code.resolve s.positions handler = .ok range)
        handlers ranges' → (∀ range ∈ ranges', range ∈ ranges) →
      List.Forall₂ (fun x extra => List.Forall₂ (Repeats f labels x.1)
        (stretches x.2 0 none f.lines) extra) (handlers.zip ranges') extras →
      List.Forall₂ (fun x y => y.1 = x.1 ∧ Meets s labels (handlersAt s) (s.whole place) K x.2 y.2)
        (handlers.filterMap (catching s.positions index))
        ((((handlers.zip ranges').zip extras).flatMap fun x => x.1.1 :: x.2).filterMap
          (catching s'.positions (spot labels (K.place index)))) := by
    intro handlers ranges' extras hranges
    induction hranges generalizing extras with
    | nil => exact fun _ _ => .nil
    | @cons handler range handlers ranges' hrange _ ih =>
      intro hsub hrepeats
      obtain ⟨hmem, hsub⟩ := List.forall_mem_cons.mp hsub
      rw [List.zip_cons_cons] at hrepeats
      cases hrepeats with
      | @cons _ extra _ extras hfirst hrest =>
        have hcorr := h.handler_corresponds hvalid hmono huncovered henclosed hmem hrange hfirst hK
          hindex hi
        rw [List.zip_cons_cons, List.zip_cons_cons, List.flatMap_cons, List.filterMap_append]
        have hsplit : (handler :: handlers).filterMap (catching s.positions index) =
            (catching s.positions index handler).toList ++
              handlers.filterMap (catching s.positions index) := by
          cases hcatching : catching s.positions index handler <;> simp [hcatching]
        rw [hsplit]
        exact List.rel_append hcorr (ih hsub hrest)
  rw [handlersAt, handlersAt, hhandlers]
  exact hall hranges (fun _ h => h) hrepeats

/-- All labels of a handler and of those that repeat it are placed. -/
theorem resolves (h : Result s f labels s') (hvalid : Valid s f (s.whole place))
    (hfirst : place 0 = 0) (hlast : place s.code.instructions.size = f.lines.length)
    {ranges : List HandlerRange} (huncovered : Uncovered s ranges) (henclosed : Enclosed s ranges)
    {handler : Handler} {range : HandlerRange} (hmem : range ∈ ranges)
    (hrange : Code.resolve s.positions handler = .ok range) {extra : List Handler}
    (hrepeats : List.Forall₂ (Repeats f labels handler) (stretches range 0 none f.lines) extra) :
    ∀ handler' ∈ handler :: extra, ∃ range', Code.resolve s'.positions handler' = .ok range' := by
  refine List.forall_mem_cons.mpr ⟨⟨_, h.resolve_original hvalid hrange⟩, fun handler' hmem' => ?_⟩
  obtain ⟨stretch, hstretch, hrepeats⟩ := (mem_of_forall₂ hrepeats).2 handler' hmem'
  obtain ⟨hlt, hle⟩ := stretches_bounded range f.lines (by simp) stretch hstretch
  rw [Nat.zero_add] at hle
  -- the stretch begins with a line of its copy that the handler covers
  have hcopy : stretch.copy ∈ copiesAt stretch.start (stretches range 0 none f.lines) := by
    refine List.mem_map.mpr ⟨stretch, List.mem_filter.mpr ⟨hstretch, ?_⟩, rfl⟩
    simp [Stretch.has, hlt]
  obtain ⟨start, hstart, -⟩ := h.find_mark hrepeats.start (hlt.le.trans hle)
  obtain ⟨stop, hstop, -⟩ := h.find_mark hrepeats.stop hle
  rcases accounted hvalid hfirst hlast (hlt.trans_le hle) with
    ⟨l, hl⟩ | ⟨K, index, i, hK, hindex, hi, hplace⟩
  · rw [copiesAt_stretches range f.lines (by simp)] at hcopy
    simp [hl, coveredCopy?] at hcopy
  · rw [← hplace, copiesAt_place hvalid huncovered hmem hK hindex hi] at hcopy
    by_cases hcovers : range.covers index
    · rw [if_pos hcovers, Option.mem_toList, Option.map_eq_some_iff] at hcopy
      obtain ⟨header, hheader, hcopy⟩ := hcopy
      obtain ⟨q, hfind, -⟩ := h.find_entry hvalid henclosed hmem hrange hK hheader hindex hcovers
      rw [hcopy, ← hrepeats.entry] at hfind
      exact ⟨⟨_, _, _⟩, Code.resolve_ok.mpr ⟨hstart, hstop, hfind⟩⟩
    · rw [if_neg hcovers] at hcopy
      cases hcopy

end Result

/-! ## Inlining -/

theorem placed?_line (header : Option Header) (index : Nat) (i : Instruction) :
    (line header index i).instruction.placed? = none ↔ i.placed? = none := by
  cases header with
  | none => exact Iff.rfl
  | some header => simp [line, placed?_rewrite]

/-- Handlers have ranges if their labels are placed. -/
theorem handlerRanges_of_resolve {positions : LabelPositions}
    (hpositions : c.labelPositions = .ok positions)
    (h : ∀ handler ∈ c.handlers, ∃ range, Code.resolve positions handler = .ok range) :
    ∃ ranges, c.handlerRanges = .ok ranges := by
  have hall : ∀ handlers : List Handler,
      (∀ handler ∈ handlers, ∃ range, Code.resolve positions handler = .ok range) →
      ∃ ranges, List.Forall₂ (fun handler range => Code.resolve positions handler = .ok range)
        handlers ranges := by
    intro handlers h
    induction handlers with
    | nil => exact ⟨[], .nil⟩
    | cons handler handlers ih =>
      obtain ⟨⟨range, hrange⟩, h⟩ := List.forall_mem_cons.mp h
      obtain ⟨ranges, hranges⟩ := ih h
      exact ⟨range :: ranges, .cons hrange hranges⟩
  obtain ⟨ranges, hranges⟩ := hall c.handlers h
  exact ⟨ranges, (Code.handlerRanges_ok hpositions).mpr hranges⟩

/-- Two points have the same paths from there, exceptions included: an instruction of the code under
some calls, and an instruction of the result. -/
def Alike (s s' : Source) (lines : List Emitted) (index : Nat) (calls : List Call) (q : Nat) : Prop :=
  ∀ x seen, Traces (s.Next (handlersAt s) depth) s.see ⟨index, calls, x⟩ seen ↔
    Traces (s'.Next (handlersAt s') depth) (seeOrigin s lines) ⟨q, [], x⟩ seen

/-- Code that is left as it is has the same paths as before. -/
theorem alike_plainLines (positions : LabelPositions) (index : Nat) :
    Alike ⟨d, positions⟩ ⟨d, positions⟩ (plainLines d) index [] index := by
  intro x seen
  rw [seeOrigin_plainLines]

/-- **Inlining keeps handlers.** Let no call be covered by a handler, and let no handler lead out of a
subroutine that is called to a `ret`. Then the handlers of the result can be found, the code and the result have
the same paths with exceptions, and for every instruction of the result there are calls under which it
is like the one that it comes from: the same paths go on from there, and the handlers that cover the
two correspond in order, catch the same, and are alike under the same calls. -/
theorem inline_handlers {positions : LabelPositions} {ranges : List HandlerRange}
    (h : inline c = .ok d) (hpositions : c.labelPositions = .ok positions)
    (hranges : c.handlerRanges = .ok ranges) (hbounded : Bounded c)
    (hfirst : EntryFirst ⟨c, positions⟩) (huncovered : Uncovered ⟨c, positions⟩ ranges)
    (henclosed : Enclosed ⟨c, positions⟩ ranges) : ∃ positions' ranges' lines,
      d.labelPositions = .ok positions' ∧ d.handlerRanges = .ok ranges' ∧
      d.instructions.toList = lines.map Emitted.instruction ∧ (∀ e ∈ lines, e.Presents c) ∧
      Alike ⟨c, positions⟩ ⟨d, positions'⟩ lines 0 [] 0 ∧
      ∀ q e index, lines[q]? = some e → e.origin = some index → e.instruction.placed? = none →
        ∃ calls, Alike ⟨c, positions⟩ ⟨d, positions'⟩ lines index calls q ∧
          List.Forall₂ (fun x y => y.1 = x.1 ∧
              Alike ⟨c, positions⟩ ⟨d, positions'⟩ lines x.2 calls y.2)
            (handlersAt ⟨c, positions⟩ index) (handlersAt ⟨d, positions'⟩ q) := by
  rcases inline_inv h with ⟨hnone, rfl⟩ | ⟨positions₀, ranges₀, f, labels, extras, hinlined⟩
  · -- without subroutines the result is the code itself
    refine ⟨positions, ranges, plainLines d, hpositions, hranges, instruction_plainLines.symm,
      presents_plainLines hnone, alike_plainLines positions 0, ?_⟩
    intro q e index hq horigin _
    cases (origin_plainLines hq).symm.trans horigin
    exact ⟨[], alike_plainLines positions q,
      List.forall₂_same.mpr fun x _ => ⟨rfl, alike_plainLines positions x.2⟩⟩
  · -- otherwise the result runs in step with the code, from every line that comes from an instruction
    cases hpositions.symm.trans hinlined.labelPositions
    cases hranges.symm.trans hinlined.handlerRanges
    obtain ⟨positions', hresult⟩ := hinlined.result hbounded
    obtain ⟨place, -, hstart, hlast, hmono, hvalid⟩ := hinlined.written.valid hpositions
    have hresolved := (Code.handlerRanges_ok hpositions).mp hranges
    have hcorr := hresult.corresponding hvalid hmono huncovered henclosed hresolved hinlined.repeats
      hinlined.handlers
    have hmatching := hresult.matching depth_blind hfirst hvalid hcorr
    have halike : ∀ {index : Nat} {calls : List Call} {q : Nat},
        (∀ x, Stands ⟨c, positions⟩ f labels (handlersAt ⟨c, positions⟩)
          (Source.whole ⟨c, positions⟩ place) ⟨index, calls, x⟩ ⟨q, [], x⟩) →
        Alike ⟨c, positions⟩ ⟨d, positions'⟩ (spread labels f.lines) index calls q :=
      fun hstands x seen => hmatching.traces_iff (.here (hstands x)) seen
    have hfound : ∀ handler' ∈ d.handlers, ∃ range', Code.resolve positions' handler' = .ok range' := by
      intro handler' hmem
      rw [hinlined.handlers] at hmem
      obtain ⟨⟨⟨handler, range⟩, extra⟩, hx, hmem⟩ := List.mem_flatMap.mp hmem
      have hrepeats := (List.forall₂_iff_zip.mp hinlined.repeats).2 hx
      have hpair := (List.of_mem_zip hx).1
      have hrange := (List.forall₂_iff_zip.mp hresolved).2 hpair
      exact hresult.resolves hvalid hstart hlast huncovered henclosed (List.of_mem_zip hpair).2 hrange
        hrepeats handler' hmem
    obtain ⟨ranges', hranges'⟩ := handlerRanges_of_resolve hresult.positions' hfound
    refine ⟨positions', ranges', spread labels f.lines, hresult.positions', hranges',
      hinlined.instructions, fun e he => hresult.presents hvalid hstart hlast he, ?_, ?_⟩
    · exact fun x seen => hmatching.traces_iff
        (hresult.toward depth_blind (Nat.zero_le _) (Result.start hstart x)) seen
    · intro q e index hq horigin hlabel
      rcases spread_cases labels hq with ⟨p, rfl, hp⟩ | ⟨p, j, -, -, hj⟩
      · rcases Result.accounted hvalid hstart hlast (List.getElem?_eq_some_iff.mp hp).1 with
          ⟨l, hl⟩ | ⟨K, index', i, hK, hindex, hi, rfl⟩
        · cases hp.symm.trans hl
          cases horigin
        · obtain ⟨e', he', horigin'⟩ := Result.origin hvalid hK hindex hi
          cases hp.symm.trans he'
          cases horigin.symm.trans horigin'
          have hplaced : i.placed? = none := by
            by_cases hjsr : ∃ l, i = .jsr l
            · obtain ⟨l, rfl⟩ := hjsr
              rfl
            · have hline := ((Result.child hvalid hK).1.line index i hindex hi
                fun l hl => hjsr ⟨l, hl⟩).2
              cases hp.symm.trans hline
              exact (placed?_line ..).mp hlabel
          refine ⟨K.calls, halike fun x => .of_standing hK hindex,
            (hcorr K hK index i hindex hi hplaced).imp ?_⟩
          rintro ⟨_, entry⟩ ⟨_, q⟩ ⟨hcaught, ⟨hhas, rfl⟩ | ⟨habandons, hhas, rfl⟩⟩
          · exact ⟨hcaught, halike fun x => .of_standing hK hhas⟩
          · exact ⟨hcaught, halike fun x => .of_abandons hhas habandons _⟩
      · obtain ⟨l, -, rfl⟩ := mem_marksAt.mp (List.mem_of_getElem? hj)
        cases horigin

/-! ## A handler in a subroutine, and one around a call -/

namespace Cleanup

/-- Calls a subroutine with two handlers: one leads out of it, the other one stays in it. -/
def guarded : Code := codeOf [.jsr ⟨0⟩, .returnVoid, .label ⟨4⟩, .stack .pop, .returnVoid, .label ⟨0⟩,
  .store .object 1, .label ⟨1⟩, .pushNull, .label ⟨2⟩, .label ⟨3⟩, .stack .pop, .ret 1]
  [⟨⟨1⟩, ⟨2⟩, ⟨4⟩, some .arithmeticException⟩, ⟨⟨1⟩, ⟨2⟩, ⟨3⟩, none⟩]

/-- Where its labels are. -/
def guardedPositions : LabelPositions := [(⟨3⟩, 10), (⟨2⟩, 9), (⟨1⟩, 7), (⟨0⟩, 5), (⟨4⟩, 2)]

/-- Calls a subroutine, with a handler around the call only. -/
def around : Code := codeOf [.label ⟨0⟩, .jsr ⟨3⟩, .label ⟨1⟩, .returnVoid, .label ⟨2⟩, .stack .pop,
  .returnVoid, .label ⟨3⟩, .store .object 1, .pushInt 1, .stack .pop, .ret 1]
  [⟨⟨0⟩, ⟨1⟩, ⟨2⟩, none⟩]

/-- The lines that come of it. -/
def aroundLines : List Emitted := [⟨.label ⟨0⟩, some 0, none⟩, ⟨.label ⟨6⟩, none, none⟩,
  ⟨.pushNull, some 1, some 0⟩, ⟨.label ⟨7⟩, none, none⟩, ⟨.label ⟨4⟩, some 7, some 0⟩,
  ⟨.store .object 1, some 8, some 0⟩, ⟨.pushInt 1, some 9, some 0⟩, ⟨.stack .pop, some 10, some 0⟩,
  ⟨.goto ⟨5⟩, some 11, some 0⟩, ⟨.label ⟨5⟩, none, none⟩, ⟨.label ⟨1⟩, some 2, none⟩,
  ⟨.returnVoid, some 3, none⟩, ⟨.label ⟨2⟩, some 4, none⟩, ⟨.stack .pop, some 5, none⟩,
  ⟨.returnVoid, some 6, none⟩, ⟨.label ⟨3⟩, some 7, none⟩, ⟨.store .object 1, some 8, none⟩,
  ⟨.pushInt 1, some 9, none⟩, ⟨.stack .pop, some 10, none⟩, ⟨.ret 1, some 11, none⟩]

/-- The handler that leads out of the subroutine only returns from the method. -/
theorem guarded_abandons : Source.Abandons ⟨guarded, guardedPositions⟩
    (handlersAt ⟨guarded, guardedPositions⟩) 2 := by
  refine Source.abandons_of_stays [2, 3, 4] (by decide) (fun j hj k hk => ?_) (fun j hj slot hi => ?_)
  · simp only [List.mem_cons, List.not_mem_nil, or_false] at hj
    cases hk with
    | next hi h =>
      rcases hj with rfl | rfl | rfl
      · decide
      · decide
      · cases hi
        rcases h with h | ⟨l, h⟩ <;> cases h
    | jumps hi _ hl _ => rcases hj with rfl | rfl | rfl <;> (cases hi; cases hl)
    | throws hi _ hhandler =>
      have hnone : ∀ j ∈ [2, 3, 4], handlersAt ⟨guarded, guardedPositions⟩ j = [] := by decide +kernel
      rw [hnone j (by simpa using hj)] at hhandler
      cases hhandler
  · simp only [List.mem_cons, List.not_mem_nil, or_false] at hj
    rcases hj with rfl | rfl | rfl <;> cases hi

end Cleanup

open Cleanup in
/-- One handler is found in the copy again, the other one outside of it. -/
theorem inline_handlers_guarded : ∃ d positions ranges positions' ranges' lines,
    inline guarded = .ok d ∧ guarded.labelPositions = .ok positions ∧
    guarded.handlerRanges = .ok ranges ∧ Bounded guarded ∧ EntryFirst ⟨guarded, positions⟩ ∧
    Uncovered ⟨guarded, positions⟩ ranges ∧ Enclosed ⟨guarded, positions⟩ ranges ∧
    d.labelPositions = .ok positions' ∧ d.handlerRanges = .ok ranges' ∧
    d.instructions.toList = lines.map Emitted.instruction ∧ (∀ e ∈ lines, e.Presents guarded) ∧
    Alike ⟨guarded, positions⟩ ⟨d, positions'⟩ lines 0 [] 0 ∧
    ∀ q e index, lines[q]? = some e → e.origin = some index → e.instruction.placed? = none →
      ∃ calls, Alike ⟨guarded, positions⟩ ⟨d, positions'⟩ lines index calls q ∧
        List.Forall₂ (fun x y => y.1 = x.1 ∧
            Alike ⟨guarded, positions⟩ ⟨d, positions'⟩ lines x.2 calls y.2)
          (handlersAt ⟨guarded, positions⟩ index) (handlersAt ⟨d, positions'⟩ q) := by
  have hpositions : guarded.labelPositions = .ok guardedPositions := by rfl
  have hranges : guarded.handlerRanges = .ok [⟨7, 9, 2⟩, ⟨7, 9, 10⟩] := by rfl
  have hbounded : Bounded guarded := by decide
  have hfirst : EntryFirst ⟨guarded, guardedPositions⟩ := by decide +kernel
  have huncovered : Uncovered ⟨guarded, guardedPositions⟩ [⟨7, 9, 2⟩, ⟨7, 9, 10⟩] := by decide +kernel
  have hstays : ∀ x ∈ Source.subroutines ⟨guarded, guardedPositions⟩, 10 ∈ x.2 := by decide +kernel
  have henclosed : Enclosed ⟨guarded, guardedPositions⟩ [⟨7, 9, 2⟩, ⟨7, 9, 10⟩] := by
    intro x hx range hrange j _ _
    rcases List.mem_pair.mp hrange with rfl | rfl
    · exact .inr guarded_abandons
    · exact .inl (hstays x hx)
  have hok : (inline guarded).toOption.isSome = true := by decide +kernel
  cases hinline : inline guarded with
  | error e =>
    rw [hinline] at hok
    cases hok
  | ok d =>
    obtain ⟨positions', ranges', lines, h⟩ :=
      inline_handlers hinline hpositions hranges hbounded hfirst huncovered henclosed
    exact ⟨d, _, _, positions', ranges', lines, rfl, hpositions, hranges, hbounded, hfirst,
      huncovered, henclosed, h⟩

open Cleanup in
/-- In the code no handler covers the instruction with index 9. In the result the handler around the
call covers what is put for it in the copy. -/
theorem inline_handlers_around : ∃ d positions positions', inline around = .ok d ∧
    around.labelPositions = .ok positions ∧ Bounded around ∧ EntryFirst ⟨around, positions⟩ ∧
    d.labelPositions = .ok positions' ∧ d.instructions.toList = aroundLines.map (·.instruction) ∧
    (∀ e ∈ aroundLines, e.Presents around) ∧ aroundLines[6]? = some ⟨.pushInt 1, some 9, some 0⟩ ∧
    handlersAt ⟨around, positions⟩ 9 = [] ∧ handlersAt ⟨d, positions'⟩ 6 = [(none, 12)] := by
  have hpositions : around.labelPositions = .ok [(⟨3⟩, 7), (⟨2⟩, 4), (⟨1⟩, 2), (⟨0⟩, 0)] := by rfl
  have hd : inline around = .ok
      { codeOf (aroundLines.map (·.instruction))
          [⟨⟨0⟩, ⟨1⟩, ⟨2⟩, none⟩, ⟨⟨6⟩, ⟨7⟩, ⟨2⟩, none⟩] with maxLocals := 3, maxStack := 0 } := by
    decide +kernel
  refine ⟨_, _, [(⟨3⟩, 15), (⟨2⟩, 12), (⟨1⟩, 10), (⟨5⟩, 9), (⟨4⟩, 4), (⟨7⟩, 3), (⟨6⟩, 1), (⟨0⟩, 0)], hd,
    hpositions, by decide, by decide +kernel, rfl, rfl, ?_, rfl, by decide +kernel,
    by decide +kernel⟩
  simp only [aroundLines, List.forall_mem_cons, List.not_mem_nil, false_implies, implies_true]
  exact ⟨⟨_, rfl, id, rfl⟩, ⟨_, rfl, by decide +kernel⟩, ⟨_, rfl, rfl⟩, ⟨_, rfl, by decide +kernel⟩,
    ⟨_, rfl, fun _ => ⟨4⟩, rfl⟩, ⟨_, rfl, id, rfl⟩, ⟨_, rfl, id, rfl⟩, ⟨_, rfl, id, rfl⟩,
    ⟨_, rfl, .inr ⟨_, rfl⟩⟩, ⟨_, rfl, by decide +kernel⟩, ⟨_, rfl, id, rfl⟩, ⟨_, rfl, id, rfl⟩,
    ⟨_, rfl, id, rfl⟩, ⟨_, rfl, id, rfl⟩, ⟨_, rfl, id, rfl⟩, ⟨_, rfl, id, rfl⟩, ⟨_, rfl, id, rfl⟩,
    ⟨_, rfl, id, rfl⟩, ⟨_, rfl, id, rfl⟩, ⟨_, rfl, .inl rfl⟩, trivial⟩

end Resumption.Subroutine
