import Resumption.Proofs.Subroutine.Catching
import Resumption.Proofs.Subroutine.Ending

/-!
# Labels after inlining

In what inlining gives there is nothing left to inline, and the labels of the code are where they
were.

* **`Leaves`** says this of a code and what comes of it: there is no `jsr`, every label that was placed
  is placed once, and so is every label in use that is fresh.
* Jumps of a copy go to labels of the copy or to its end (`target_placed_of_copy`). Handlers may begin
  outside of the copy that they are for; their labels are placed all the same (`handler_placed`).
* **`inline_ends`**: inlining ends, leaves such a code, and fails if a subroutine calls itself.
-/

namespace Resumption

theorem Label.lt_above {used : List Label} {l : Label} (hl : l ∈ used) :
    l.id < (Label.above used).id := by
  have hfold : ∀ (used : List Label) (bound : Label), bound.id ≤
      (used.foldl (fun bound l => if bound.id ≤ l.id then l.next else bound) bound).id ∧
      ∀ l ∈ used, l.id <
        (used.foldl (fun bound l => if bound.id ≤ l.id then l.next else bound) bound).id := by
    intro used
    induction used with
    | nil => exact fun bound => ⟨Nat.le_refl _, List.forall_mem_nil _⟩
    | cons k used ih =>
      intro bound
      rw [List.foldl_cons]
      have hstep : bound.id ≤ (if bound.id ≤ k.id then k.next else bound).id ∧
          k.id < (if bound.id ≤ k.id then k.next else bound).id := by
        split
        · simp only [Label.next]
          omega
        · omega
      obtain ⟨hle, hlt⟩ := ih (if bound.id ≤ k.id then k.next else bound)
      exact ⟨hstep.1.trans hle, List.forall_mem_cons.mpr ⟨hstep.2.trans_le hle, hlt⟩⟩
  exact (hfold used ⟨0⟩).2 l hl

namespace Code

/-- The labels that are placed, in order. -/
def placed (c : Code) : List Label := c.instructions.toList.filterMap Instruction.placed?

/-- The labels in use. -/
def used (c : Code) : List Label :=
  c.instructions.toList.flatMap labelsOf ++ c.handlers.flatMap Handler.labels

/-- Is the next label the one that comes of the instructions and handlers? Limits and a stack map may
have been set afterwards. -/
def New (c : Code) : Prop :=
  c.nextLabel = (ofInstructions c.instructions.toList c.handlers).nextLabel

instance (c : Code) : Decidable c.New := inferInstanceAs (Decidable (_ = _))

variable {c : Code} {positions : LabelPositions}

theorem New.lt (h : c.New) {l : Label} (hl : l ∈ c.used) : l.id < c.nextLabel.id := by
  rw [h]
  exact Label.lt_above hl

theorem mem_placed {l : Label} : l ∈ c.placed ↔ .label l ∈ c.instructions := by
  simp [placed, List.mem_filterMap, Instruction.placed?_eq_some]

theorem mem_placed_iff_find (h : c.labelPositions = .ok positions) {l : Label} :
    l ∈ c.placed ↔ ∃ q, positions.find l = .ok q := by
  rw [mem_placed, Array.mem_iff_getElem?]
  exact exists_congr fun q => (find_iff h).symm

/-- Where labels have positions, none is placed twice. -/
theorem nodup_placed (h : c.labelPositions = .ok positions) : c.placed.Nodup := by
  rw [placed, List.Nodup, List.pairwise_filterMap, List.pairwise_iff_getElem]
  rintro i j hi hj hlt l hl l' hl' rfl
  have hfind : ∀ {k : Nat} (hk : k < c.instructions.toList.length),
      c.instructions.toList[k].placed? = some l → positions.find l = .ok k := by
    intro k hk hlabel
    refine (find_iff h).mpr ?_
    rw [← Array.getElem?_toList, List.getElem?_eq_getElem hk,
      Instruction.placed?_eq_some.mp hlabel]
  cases (hfind hi hl).symm.trans (hfind hj hl')
  exact Nat.lt_irrefl _ hlt

end Code

namespace Subroutine

/-- What a code is like that came of another one. -/
structure Leaves (c d : Code) : Prop where
  /-- nothing is left to inline -/
  jsr : ∀ l, .jsr l ∉ d.instructions
  /-- no label is placed twice -/
  nodup : d.placed.Nodup
  /-- labels of the code are placed again -/
  kept : ∀ l ∈ c.placed, d.placed.count l = 1
  /-- labels in use are placed, if they are fresh or were placed before -/
  used : ∀ l ∈ d.used, l ∉ c.used ∨ l ∈ c.placed → l ∈ d.placed
  /-- variables are as many as before -/
  maxLocals : d.maxLocals = c.maxLocals

variable {s s' : Source} {o o' f : Output}

/-! ## What comes of a code -/

namespace Result

variable {labels : List (Nat × Label)} {place : Nat → Nat}

theorem placed_of_written (h : Result s f labels s') {l : Label} (hl : l ∈ f.placed) :
    l ∈ s'.code.placed := by
  obtain ⟨e, he, hlabel⟩ := List.mem_filterMap.mp hl
  obtain ⟨p, hp⟩ := List.mem_iff_getElem?.mp he
  have hat := h.at_spot hp
  rw [Instruction.placed?_eq_some.mp hlabel] at hat
  exact Code.mem_placed.mpr (Array.mem_of_getElem? hat)

/-- Outside of copies labels have the names that they had. -/
theorem placed_of_placed (h : Result s f labels s') (hvalid : Valid s f (s.whole place)) {l : Label}
    (hl : l ∈ s.code.placed) : l ∈ s'.code.placed := by
  obtain ⟨j, hj⟩ := (Code.mem_placed_iff_find h.positions).mp hl
  have hhas : (s.whole place).has j :=
    (Array.getElem?_eq_some_iff.mp ((Code.find_iff h.positions).mp hj)).1.le
  have hfound := h.find_naming (child hvalid .whole).1 hhas hj
  exact (Code.mem_placed_iff_find h.positions').mpr ⟨_, hfound⟩

/-- Jumps in a copy go to labels of the copy, or to its end. -/
theorem target_placed_of_copy (h : Result s f labels s') (hvalid : Valid s f (s.whole place))
    {K : Scope} {header : Header} {call index p q : Nat} {calls : List Call} {l l' : Label}
    {i : Instruction} (hK : Standing s f (s.whole place) K)
    (hreplaces : K.Replaces s f header calls call l p q) (hindex : K.has index)
    (hi : s.code.instructions[index]? = some i) (hjsr : ∀ l, i ≠ .jsr l)
    (hl : l' ∈ (line (some header) index i).instruction.targets) : l' ∈ s'.code.placed := by
  by_cases hret : ∃ slot, i = .ret slot
  · obtain ⟨slot, rfl⟩ := hret
    obtain rfl := List.mem_singleton.mp hl
    obtain ⟨r, -, hdone⟩ := hreplaces.done
    exact (Code.mem_placed_iff_find h.positions').mpr ⟨_, h.find hdone⟩
  · rw [line_instruction (fun slot hslot => hret ⟨slot, hslot⟩), targets_mapLabels] at hl
    obtain ⟨k, hk, rfl⟩ := List.mem_map.mp hl
    obtain ⟨start, body, -, -, hbody, hhas, -⟩ := hreplaces.enters
    obtain ⟨j, hj, hfind⟩ :=
      (Source.body_isBody hbody).2.targets index ((hhas index).mp hindex) i hi hjsr k hk
    have hfound := h.find_naming (child hvalid hK).1 ((hhas j).mpr hj) hfind
    rw [hreplaces.copied] at hfound
    exact (Code.mem_placed_iff_find h.positions').mpr ⟨_, hfound⟩

/-- **Targets** of jumps are placed in the copy, if they are not those of the code. -/
theorem target_placed (h : Result s f labels s') (hvalid : Valid s f (s.whole place))
    (hfirst : place 0 = 0) (hlast : place s.code.instructions.size = f.lines.length)
    {j : Instruction} (hj : j ∈ s'.code.instructions) {l : Label} (hl : l ∈ j.targets) :
    l ∈ s.code.used ∨ l ∈ s'.code.placed := by
  obtain ⟨q, hq⟩ := Array.mem_iff_getElem?.mp hj
  rw [h.getElem?, Option.map_eq_some_iff] at hq
  obtain ⟨e, he, rfl⟩ := hq
  rcases spread_cases labels he with ⟨p, -, hp⟩ | ⟨p, k, -, -, hk⟩
  · rcases accounted hvalid hfirst hlast (List.getElem?_eq_some_iff.mp hp).1 with
      ⟨k, hk⟩ | ⟨K, index, i, hK, hindex, hi, rfl⟩
    · cases hp.symm.trans hk
      cases hl
    · obtain ⟨sits, hchild⟩ := child hvalid hK
      by_cases hjsr : ∃ k, i = .jsr k
      · obtain ⟨k, rfl⟩ := hjsr
        obtain ⟨header, K', hreplaces, -⟩ := hchild index k hindex hi
        cases hp.symm.trans hreplaces.placeholder
        cases hl
      · have hne : ∀ k, i ≠ .jsr k := fun k hk => hjsr ⟨k, hk⟩
        cases hp.symm.trans (sits.line index i hindex hi hne).2
        cases hK with
        | whole =>
          refine .inl (List.mem_append_left _ (List.mem_flatMap.mpr ⟨i, ?_, ?_⟩))
          · exact Array.mem_toList_iff.mpr (Array.mem_of_getElem? hi)
          · exact List.mem_append_right _ hl
        | inner outer hcall hjsr' hreplaces hinner =>
          rw [hreplaces.copied] at hl
          exact .inr (h.target_placed_of_copy hvalid (.inner outer hcall hjsr' hreplaces hinner)
            hreplaces hindex hi hne hl)
  · obtain ⟨_, -, rfl⟩ := mem_marksAt.mp (List.mem_of_getElem? hk)
    cases hl

/-- **No calls** are left. -/
theorem no_jsr (h : Result s f labels s') (hvalid : Valid s f (s.whole place))
    (hfirst : place 0 = 0) (hlast : place s.code.instructions.size = f.lines.length) (l : Label) :
    .jsr l ∉ s'.code.instructions := by
  intro hl
  obtain ⟨q, hq⟩ := Array.mem_iff_getElem?.mp hl
  rw [h.getElem?, Option.map_eq_some_iff] at hq
  obtain ⟨e, he, hjsr⟩ := hq
  have hpresents := h.presents hvalid hfirst hlast (List.mem_of_getElem? he)
  rw [Emitted.Presents, hjsr] at hpresents
  split at hpresents
  · obtain ⟨k, hk, -⟩ := hpresents
    cases hk
  · obtain ⟨i, -, hi⟩ := hpresents
    split at hi
    · cases hi
    · rcases hi with hi | ⟨k, hi⟩ <;> cases hi
    · rename_i hne hret
      obtain ⟨names, hi⟩ := hi
      exact mapLabels_ne_jsr hne l hi.symm

end Result

variable {c d : Code} {positions : LabelPositions} {ranges : List HandlerRange}
  {labels : List (Nat × Label)} {extras : List (List Handler)}

/-- **Handlers.** Their labels are placed, those of the copies as well. -/
theorem Inlined.handler_placed (h : Inlined c d positions ranges f labels extras)
    (hbounded : Bounded c) {handler : Handler} (hhandler : handler ∈ d.handlers) {l : Label}
    (hl : l ∈ handler.labels) : l ∈ d.placed := by
  obtain ⟨positions', hresult⟩ := h.result hbounded
  obtain ⟨place, -, -, -, -, hvalid⟩ := h.written.valid h.labelPositions
  obtain ⟨-, hresolved⟩ :=
    List.forall₂_iff_zip.mp ((Code.handlerRanges_ok h.labelPositions).mp h.handlerRanges)
  obtain ⟨-, hrepeated⟩ := List.forall₂_iff_zip.mp h.repeats
  rw [h.handlers] at hhandler
  obtain ⟨⟨⟨original, range⟩, extra⟩, hx, hhandler⟩ := List.mem_flatMap.mp hhandler
  have hkept : ∀ l ∈ original.labels, l ∈ d.placed := by
    obtain ⟨hstart, hstop, hentry⟩ := Code.resolve_ok.mp (hresolved (List.of_mem_zip hx).1)
    have hfound : ∀ {l j}, positions.find l = .ok j → l ∈ d.placed := fun hj =>
      hresult.placed_of_placed hvalid ((Code.mem_placed_iff_find h.labelPositions).mpr ⟨_, hj⟩)
    simp only [Handler.labels, List.forall_mem_cons]
    exact ⟨hfound hstart, hfound hstop, hfound hentry, List.forall_mem_nil _⟩
  rcases List.mem_cons.mp hhandler with rfl | hhandler
  · exact hkept l hl
  obtain ⟨stretch, hstretch, hrepeats⟩ := (mem_of_forall₂ (hrepeated hx)).2 handler hhandler
  obtain ⟨hlt, hle⟩ := stretches_bounded range f.lines (by simp) stretch hstretch
  rw [Nat.zero_add] at hle
  have hmark : ∀ {p k}, (p, k) ∈ labels → p ≤ f.lines.length → k ∈ d.placed := by
    intro p k hk hp
    obtain ⟨q, hq, -⟩ := hresult.find_mark hk hp
    exact (Code.mem_placed_iff_find hresult.positions').mpr ⟨q, hq⟩
  simp only [Handler.labels, List.mem_cons, List.not_mem_nil, or_false] at hl
  rcases hl with rfl | rfl | rfl
  · exact hmark hrepeats.start (hlt.le.trans hle)
  · exact hmark hrepeats.stop hle
  · rw [hrepeats.entry]
    rcases h.written.names original.entry with hsame | hplaced
    · rw [hsame]
      exact hkept _ (by simp [Handler.labels])
    · exact hresult.placed_of_written hplaced

/-- **Labels.** Inlining leaves them in their places. -/
theorem leaves_of_inlined (h : Inlined c d positions ranges f labels extras) (hnew : c.New)
    (hmaxLocals : d.maxLocals = c.maxLocals) : Leaves c d := by
  have hbounded : Bounded c := fun i hi l hl =>
    hnew.lt (List.mem_append_left _ (List.mem_flatMap.mpr ⟨i, hi, hl⟩))
  obtain ⟨positions', hresult⟩ := h.result hbounded
  obtain ⟨place, -, hfirst, hlast, -, hvalid⟩ := h.written.valid h.labelPositions
  have hnodup := Code.nodup_placed hresult.positions'
  refine ⟨hresult.no_jsr hvalid hfirst hlast, hnodup, fun l hl => ?_, fun l hl hknown => ?_,
    hmaxLocals⟩
  · exact List.count_eq_one_of_mem hnodup (hresult.placed_of_placed hvalid hl)
  · have hkept : l ∈ c.used → l ∈ d.placed := fun hused =>
      hresult.placed_of_placed hvalid (hknown.resolve_left (not_not_intro hused))
    rcases List.mem_append.mp hl with hl | hl
    · obtain ⟨i, hi, hl⟩ := List.mem_flatMap.mp hl
      rcases List.mem_append.mp hl with hl | hl
      · obtain rfl := Instruction.placed?_eq_some.mp (Option.mem_toList.mp hl)
        exact Code.mem_placed.mpr (Array.mem_toList_iff.mp hi)
      · exact (hresult.target_placed hvalid hfirst hlast (Array.mem_toList_iff.mp hi) hl).elim
          hkept id
    · obtain ⟨handler, hhandler, hl⟩ := List.mem_flatMap.mp hl
      exact h.handler_placed hbounded hhandler hl

theorem Ends.maxLocals (h : Ends c (.ok d)) : d.maxLocals = c.maxLocals := by
  generalize hd : Except.ok d = r at h
  cases h with
  | plain =>
    cases hd
    rfl
  | duplicate => cases hd
  | inlined =>
    obtain ⟨o, -, hfinish⟩ := Except.bind_ok.mp hd.symm
    obtain ⟨ranges, -, hfinish⟩ := Except.bind_ok.mp hfinish
    cases hfinish
    rfl

/-- What comes of a new code is new. -/
theorem Ends.new (h : Ends c (.ok d)) (hnew : c.New) : d.New := by
  generalize hd : Except.ok d = r at h
  cases h with
  | plain =>
    cases hd
    exact hnew
  | duplicate => cases hd
  | inlined =>
    obtain ⟨o, -, hfinish⟩ := Except.bind_ok.mp hd.symm
    obtain ⟨ranges, -, hfinish⟩ := Except.bind_ok.mp hfinish
    cases hfinish
    rfl

/-- Code without calls stays as it is. -/
theorem leaves_self (hnone : ∀ l, .jsr l ∉ c.instructions) (honce : c.placed.Nodup) : Leaves c c :=
  ⟨hnone, honce, fun _ hl => List.count_eq_one_of_mem honce hl,
    fun _ hl hknown => hknown.resolve_left (not_not_intro hl), rfl⟩

/-- **Inlining ends.** Let no label of a new code be placed twice. Then every body has been visited
before the fuel is used up, and inlining comes to the one end that it has without fuel. If it gives a
code, no `jsr` is left in it and labels are placed as they should be. If a `jsr` leads to a subroutine
that calls itself, at once or by others, it fails. -/
theorem inline_ends (hnew : c.New) (honce : c.placed.Nodup) : ∃ positions,
    c.labelPositions = .ok positions ∧
    (∀ start, ∃ n, n ≤ c.instructions.size + 1 ∧ (Source.visit ⟨c, positions⟩).Ends ([start], []) n
      (Source.reach ⟨c, positions⟩ (c.instructions.size + 2) [start] [])) ∧
    (∀ r, Ends c r ↔ inline c = r) ∧
    (∀ d, inline c = .ok d → Leaves c d) ∧
    ∀ target l, .jsr target ∈ c.instructions →
      Relation.ReflTransGen (Source.Calls ⟨c, positions⟩) target l →
      Relation.TransGen (Source.Calls ⟨c, positions⟩) l l → ∃ e, inline c = .error e := by
  obtain ⟨positions, hpositions⟩ := Code.labelPositions_of_nodup honce
  refine ⟨positions, hpositions, Source.visit_ends ⟨c, positions⟩, fun r => ⟨?_, ?_⟩, ?_, ?_⟩
  · exact (ends_inline c).unique
  · rintro rfl
    exact ends_inline c
  · intro d hd
    rcases inline_inv hd with ⟨hnone, rfl⟩ | ⟨_, _, _, _, _, hinlined⟩
    · exact leaves_self hnone honce
    · exact leaves_of_inlined hinlined hnew (Ends.maxLocals (hd ▸ ends_inline c))
  · intro target l hjsr hl hcircle
    cases hd : inline c with
    | error e => exact ⟨e, rfl⟩
    | ok d =>
      rcases inline_inv hd with ⟨hnone, rfl⟩ | ⟨_, _, _, _, _, hinlined⟩
      · exact absurd hjsr (hnone target)
      · cases hpositions.symm.trans hinlined.labelPositions
        obtain ⟨index, hi⟩ := Array.mem_iff_getElem?.mp hjsr
        exact absurd hcircle (hinlined.written.acyclic hi hl)

namespace Cleanup

/-- Calls a subroutine that calls another one, which calls the first. -/
def circle : Code := codeOf [.jsr ⟨0⟩, .returnVoid, .label ⟨0⟩, .store .object 1, .jsr ⟨1⟩, .ret 1,
  .label ⟨1⟩, .store .object 2, .jsr ⟨0⟩, .ret 2] []

end Cleanup

open Cleanup in
/-- Subroutines that end, and some that do not. -/
theorem inline_ends_twice :
    (twice.New ∧ twice.placed.Nodup ∧
      ∃ d, inline twice = .ok d ∧ Ends twice (.ok d) ∧ Leaves twice d) ∧
    circle.New ∧ circle.placed.Nodup ∧ ∃ e, inline circle = .error e := by
  have htwice : twice.New ∧ twice.placed.Nodup := by decide
  have hcircle : circle.New ∧ circle.placed.Nodup := by decide
  refine ⟨⟨htwice.1, htwice.2, ?_⟩, hcircle.1, hcircle.2, ?_⟩
  · obtain ⟨positions, -, -, hends, hleaves, -⟩ := inline_ends htwice.1 htwice.2
    have hok : (inline twice).toOption.isSome = true := by decide +kernel
    cases hinline : inline twice with
    | error e =>
      rw [hinline] at hok
      cases hok
    | ok d => exact ⟨d, rfl, (hends _).mpr hinline, hleaves d hinline⟩
  · obtain ⟨positions, hpositions, -, -, -, hrecursive⟩ := inline_ends hcircle.1 hcircle.2
    have hfound : circle.labelPositions = .ok [(⟨1⟩, 6), (⟨0⟩, 2)] := by rfl
    cases hpositions.symm.trans hfound
    have hforth : Source.Calls ⟨circle, [(⟨1⟩, 6), (⟨0⟩, 2)]⟩ ⟨0⟩ ⟨1⟩ :=
      ⟨2, [2, 3, 4, 5], 4, rfl, by rfl, by decide, rfl⟩
    have hback : Source.Calls ⟨circle, [(⟨1⟩, 6), (⟨0⟩, 2)]⟩ ⟨1⟩ ⟨0⟩ :=
      ⟨6, [6, 7, 8, 9], 8, rfl, by rfl, by decide, rfl⟩
    have hjsr : circle.instructions[0]? = some (.jsr ⟨0⟩) := rfl
    exact hrecursive ⟨0⟩ ⟨0⟩ (Array.mem_of_getElem? hjsr) .refl (.tail (.single hforth) hback)

end Subroutine

end Resumption
