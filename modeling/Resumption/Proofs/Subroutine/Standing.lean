import Resumption.Proofs.Subroutine.Spreading

/-!
# What stands for what

An instruction of the result stands for the instruction that it was put for, under the calls that its
copy is for (`Stands`). From there control goes on in both in the same way (`Result.matching`), as
long as every subroutine begins with its entry and the handlers in force correspond to one another.
A handler may lead out of a subroutine if control comes to no `ret` from there: then the calls that
have not returned are never missed (`Source.Lost`).
-/

namespace Resumption.Subroutine

variable {σ : Type}

/-- The copies that are found in a scope, at any depth. -/
inductive Standing (s : Source) (f : Output) (top : Scope) : Scope → Prop
  /-- the outermost scope -/
  | whole : Standing s f top top
  /-- a copy in the place of a `jsr` -/
  | inner {K K' : Scope} {header : Header} {index : Nat} {l : Label} (outer : Standing s f top K)
    (hindex : K.has index) (hl : s.code.instructions[index]? = some (.jsr l))
    (hreplaces : K'.Replaces s f header K.calls index l (K.place index) (K.stop index))
    (hvalid : Valid s f K') : Standing s f top K'

/-- What labels are called where a header is in force. -/
def naming : Option Header → Label → Label
  | none => id
  | some header => renamed header.names

/-- Renaming labels to themselves changes nothing. -/
theorem mapLabels_id (i : Instruction) : i.mapLabels id = i := by
  cases i <;> simp [Instruction.mapLabels]

/-- Renaming labels renames the targets. -/
theorem targets_mapLabels (f : Label → Label) (i : Instruction) :
    (i.mapLabels f).targets = i.targets.map f := by
  cases i <;> simp [Instruction.mapLabels, Instruction.targets]

/-- Renaming labels does not change where control goes on. -/
theorem fallsThrough_mapLabels (f : Label → Label) (i : Instruction) :
    (i.mapLabels f).fallsThrough = i.fallsThrough := by
  cases i <;> rfl

/-- Renaming labels makes no call of a subroutine. -/
theorem mapLabels_ne_jsr {f : Label → Label} {i : Instruction} (h : ∀ l, i ≠ .jsr l) (l : Label) :
    i.mapLabels f ≠ .jsr l := by
  cases i <;> simp_all [Instruction.mapLabels]

/-- Apart from `ret`, only labels change. -/
theorem line_instruction {i : Instruction} (h : ∀ slot, i ≠ .ret slot) (header : Option Header)
    (index : Nat) : (line header index i).instruction = i.mapLabels (naming header) := by
  cases header with
  | none => exact (mapLabels_id i).symm
  | some header => cases i <;> first | rfl | exact absurd rfl (h _)

/-- A line comes from the instruction that it is for. -/
@[simp]
theorem line_origin (header : Option Header) (index : Nat) (i : Instruction) :
    (line header index i).origin = some index := by
  cases header <;> rfl

/-- The code that comes of an output with labels in between. -/
structure Result (s : Source) (f : Output) (labels : List (Nat × Label)) (s' : Source) : Prop where
  /-- where labels of the code are -/
  positions : s.code.labelPositions = .ok s.positions
  /-- labels of the code are not fresh -/
  bounded : Bounded s.code
  /-- the lines are written -/
  written : s.Writes f
  /-- labels in between are fresh -/
  fresh : ∀ x ∈ labels, f.nextLabel.id ≤ x.2.id
  /-- with them the lines are the result -/
  instructions : s'.code.instructions.toList = (spread labels f.lines).map (·.instruction)
  /-- where labels of the result are -/
  positions' : s'.code.labelPositions = .ok s'.positions

/-! ## Calls that do not return -/

/-- Where control goes on, calls being passed over: to the next instruction, to a target, or to a
handler. -/
inductive Source.Onward (s : Source) (handlers : Handlers) : Nat → Nat → Prop
  /-- on to the next instruction -/
  | next {index : Nat} {i : Instruction} (hi : s.code.instructions[index]? = some i)
    (h : i.fallsThrough = true ∨ ∃ l, i = .jsr l) : s.Onward handlers index (index + 1)
  /-- to a target -/
  | jumps {index target : Nat} {i : Instruction} {l : Label}
    (hi : s.code.instructions[index]? = some i) (hjsr : ∀ l, i ≠ .jsr l) (hl : l ∈ i.targets)
    (htarget : s.positions.find l = .ok target) : s.Onward handlers index target
  /-- to a handler -/
  | throws {index entry : Nat} {i : Instruction} {caught : Option ClassName}
    (hi : s.code.instructions[index]? = some i) (hlabel : i.placed? = none)
    (hhandler : (caught, entry) ∈ handlers index) : s.Onward handlers index entry

/-- From there control comes to no `ret`. -/
def Source.Abandons (s : Source) (handlers : Handlers) (index : Nat) : Prop :=
  ∀ j, Relation.ReflTransGen (s.Onward handlers) index j →
    ∀ slot, s.code.instructions[j]? ≠ some (.ret slot)

/-- Where control is when these calls have returned. -/
def resumes (index : Nat) : List Call → Nat
  | [] => index
  | call :: calls => resumes call.back calls

/-- Behind the calls that a copy is for there may be others, if control comes to no `ret` after the
former have returned. -/
def Source.Lost (s : Source) (handlers : Handlers) (index : Nat) (calls lost : List Call) : Prop :=
  lost = [] ∨ s.Abandons handlers (resumes index calls)

namespace Source

variable {s : Source} {handlers : Handlers} {index j : Nat} {calls lost : List Call}

/-- What was abandoned stays so wherever control goes. -/
theorem Abandons.onward (h : s.Abandons handlers index) (hj : s.Onward handlers index j) :
    s.Abandons handlers j := fun k hk => h k (.head hj hk)

/-- An abandoned call is never returned from. -/
theorem Abandons.not_ret (h : s.Abandons handlers index) (slot : Nat) :
    s.code.instructions[index]? ≠ some (.ret slot) := h index .refl slot

/-- If control does not leave some places, it is enough that none of them is a `ret`. -/
theorem abandons_of_stays (out : List Nat) (hindex : index ∈ out)
    (hstays : ∀ j ∈ out, ∀ k, s.Onward handlers j k → k ∈ out)
    (hret : ∀ j ∈ out, ∀ slot, s.code.instructions[j]? ≠ some (.ret slot)) :
    s.Abandons handlers index := by
  intro j hj
  have hmem : j ∈ out := by
    induction hj with
    | refl => exact hindex
    | tail _ hstep ih => exact hstays _ ih _ hstep
  exact hret j hmem

/-- As long as no call returns and none is made. -/
theorem Lost.onward (h : s.Lost handlers index calls lost) (hj : s.Onward handlers index j) :
    s.Lost handlers j calls lost := by
  cases calls with
  | nil => exact h.imp_right fun h => h.onward hj
  | cons => exact h

end Source

/-- A point of the code and one of the result. -/
inductive Stands (s : Source) (f : Output) (labels : List (Nat × Label)) (handlers : Handlers)
    (top : Scope) : Point σ → Point σ → Prop
  /-- in a scope, under the calls that it is a copy for -/
  | intro {K : Scope} {index : Nat} {lost : List Call} {x : σ} (hK : Standing s f top K)
    (hindex : K.has index) (hlost : s.Lost handlers index K.calls lost) :
    Stands s f labels handlers top ⟨index, K.calls ++ lost, x⟩ ⟨spot labels (K.place index), [], x⟩

namespace Stands

variable {s : Source} {f : Output} {labels : List (Nat × Label)} {handlers : Handlers} {K : Scope}
  {place : Nat → Nat} {index : Nat} {x : σ}

/-- With no other calls than those that the copy is for. -/
theorem of_standing {top : Scope} (hK : Standing s f top K) (hindex : K.has index) :
    Stands s f labels handlers top ⟨index, K.calls, x⟩ ⟨spot labels (K.place index), [], x⟩ := by
  have hstands : Stands s f labels handlers top ⟨index, K.calls ++ [], x⟩
    ⟨spot labels (K.place index), [], x⟩ := .intro hK hindex (.inl rfl)
  rwa [List.append_nil] at hstands

/-- Outside of all copies, where no call is missed. -/
theorem of_abandons (hindex : (s.whole place).has index) (h : s.Abandons handlers index)
    (calls : List Call) : Stands s f labels handlers (s.whole place) ⟨index, calls, x⟩
      ⟨spot labels (place index), [], x⟩ := by
  have hstands : Stands s f labels handlers (s.whole place)
    ⟨index, (s.whole place).calls ++ calls, x⟩ ⟨spot labels ((s.whole place).place index), [], x⟩ :=
    .intro .whole hindex (.inr h)
  exact hstands

end Stands

namespace Result

variable {s s' : Source} {f : Output} {labels : List (Nat × Label)}

/-- An instruction of the result is one of the lines, with its labels spread. -/
theorem getElem? (h : Result s f labels s') (q : Nat) :
    s'.code.instructions[q]? = ((spread labels f.lines)[q]?).map (·.instruction) := by
  rw [← Array.getElem?_toList, h.instructions, List.getElem?_map]

/-- What is found at the spot of a line. -/
theorem at_spot (h : Result s f labels s') {p : Nat} {e : Emitted} (he : f.lines[p]? = some e) :
    s'.code.instructions[spot labels p]? = some e.instruction := by
  rw [h.getElem?, spread_spot labels (List.getElem?_eq_some_iff.mp he).1.le, he]
  rfl

/-- A label that is written can be found. -/
theorem find (h : Result s f labels s') {p : Nat} {l : Label} {origin copy : Option Nat}
    (he : f.lines[p]? = some ⟨.label l, origin, copy⟩) :
    s'.positions.find l = .ok (spot labels p) :=
  (Code.find_iff h.positions').mpr (h.at_spot he)

end Result

/-! ## Steps -/

/-- Does every subroutine that is called begin with its entry? -/
def EntryFirst (s : Source) : Prop := ∀ x ∈ s.subroutines, ∀ j ∈ x.2, x.1 ≤ j

instance (s : Source) : Decidable (EntryFirst s) :=
  inferInstanceAs (Decidable (∀ x ∈ s.subroutines, ∀ j ∈ x.2, x.1 ≤ j))

/-- What is put for an entry in a scope, or outside of all copies, if no call is missed there. -/
def Meets (s : Source) (labels : List (Nat × Label)) (handlers : Handlers) (top K : Scope)
    (entry q : Nat) : Prop :=
  K.has entry ∧ q = spot labels (K.place entry) ∨
    s.Abandons handlers entry ∧ top.has entry ∧ q = spot labels (top.place entry)

/-- The handlers in force at an instruction and at what is put for it correspond to one another: they
catch the same, and begin at the same instruction. -/
def Corresponding (s : Source) (f : Output) (labels : List (Nat × Label)) (top : Scope)
    (handlers handlers' : Handlers) : Prop :=
  ∀ K, Standing s f top K → ∀ index i, K.has index → s.code.instructions[index]? = some i →
    i.placed? = none → List.Forall₂ (fun x y => y.1 = x.1 ∧ Meets s labels handlers top K x.2 y.2)
      (handlers index) (handlers' (spot labels (K.place index)))

/-- An instruction of the code that can be seen: calls and returns cannot. -/
def Source.shown (s : Source) (index : Nat) : Option Nat :=
  match s.code.instructions[index]? with
  | none | some (.jsr _) | some (.ret _) => none
  | some _ => some index

/-- What is seen of a point of the code. -/
def Source.see (s : Source) (a : Point σ) : Option (Nat × σ) :=
  (s.shown a.index).map fun index => (index, a.data)

/-- What is seen of a point of the result: the instruction that it comes from. -/
def seeOrigin (s : Source) (lines : List Emitted) (b : Point σ) : Option (Nat × σ) :=
  (((lines[b.index]?).bind (·.origin)).bind s.shown).map fun index => (index, b.data)

namespace Result

variable {s s' : Source} {f : Output} {labels : List (Nat × Label)} {top K : Scope}
  {handlers handlers' : Handlers} {e : Effect σ} {index : Nat} {i : Instruction} {x : σ}
  {lost : List Call}

/-- From the labels in front of a line control comes to the line. -/
theorem toward (h : Result s f labels s') (he : e.Blind) {R : Point σ → Point σ → Prop} {p : Nat}
    (hp : p ≤ f.lines.length) {a : Point σ} (hab : R a ⟨spot labels p, [], x⟩) :
    Toward (s'.Next handlers' e) (seeOrigin s (spread labels f.lines)) R
      ⟨block labels p, [], x⟩ a := by
  have hback : ∀ k ≤ (marksAt labels p).length, Toward (s'.Next handlers' e)
      (seeOrigin s (spread labels f.lines)) R
        ⟨block labels p + ((marksAt labels p).length - k), [], x⟩ a := by
    intro k
    -- from the last mark back to the first: each is a label, which control passes
    induction k with
    | zero => exact fun _ => .here hab
    | succ k ih =>
      intro hk
      have hlt : (marksAt labels p).length - (k + 1) < (marksAt labels p).length := by omega
      have hmark := spread_mark labels hp hlt
      obtain ⟨l, -, hl⟩ := mem_marksAt.mp (List.getElem_mem hlt)
      rw [List.getElem?_eq_getElem hlt, hl] at hmark
      have hi : s'.code.instructions[block labels p + ((marksAt labels p).length - (k + 1))]? =
          some (.label l) := by
        rw [h.getElem?, hmark]
        rfl
      have hnext : block labels p + ((marksAt labels p).length - (k + 1)) + 1 =
          block labels p + ((marksAt labels p).length - k) := by omega
      refine .pass ?_ (fun b => (Source.next_label he hi).trans (by rw [hnext])) (ih (by omega))
      simp [seeOrigin, hmark]
  simpa using hback _ (Nat.le_refl _)

/-- The scope of a `jsr` that is in a scope. -/
theorem child {place : Nat → Nat} (hvalid : Valid s f (s.whole place))
    (hK : Standing s f (s.whole place) K) : K.Sits s f ∧
      ∀ index l, K.has index → s.code.instructions[index]? = some (.jsr l) →
        ∃ header K', K'.Replaces s f header K.calls index l (K.place index) (K.stop index) ∧
          Standing s f (s.whole place) K' := by
  have hvalid : Valid s f K := by
    cases hK with
    | whole => exact hvalid
    | inner _ _ _ _ hvalid => exact hvalid
  cases hvalid with
  | intro sits child replaces inner =>
    refine ⟨sits, fun index l hindex hl => ?_⟩
    obtain ⟨header, hreplaces⟩ := replaces index l hindex hl
    exact ⟨header, _, hreplaces, .inner hK hindex hl hreplaces (inner index l hindex hl)⟩

/-- What is put for an instruction comes from it. -/
theorem origin {place : Nat → Nat} (hvalid : Valid s f (s.whole place))
    (hK : Standing s f (s.whole place) K) (hindex : K.has index)
    (hi : s.code.instructions[index]? = some i) :
    ∃ e, f.lines[K.place index]? = some e ∧ e.origin = some index := by
  obtain ⟨sits, hchild⟩ := child hvalid hK
  by_cases hjsr : ∃ l, i = .jsr l
  · obtain ⟨l, rfl⟩ := hjsr
    obtain ⟨header, K', hreplaces, -⟩ := hchild index l hindex hi
    exact ⟨_, hreplaces.placeholder, rfl⟩
  · exact ⟨_, (sits.line index i hindex hi fun l hl => hjsr ⟨l, hl⟩).2, line_origin ..⟩

/-- A label of the code is called by its name in the scope. -/
theorem find_naming (h : Result s f labels s') (hsits : K.Sits s f) {j : Nat} {l : Label}
    (hj : K.has j) (hl : s.positions.find l = .ok j) :
    s'.positions.find (naming K.header l) = .ok (spot labels (K.place j)) := by
  have hline := (hsits.line j _ hj ((Code.find_iff h.positions).mp hl) (by simp)).2
  refine (Code.find_iff h.positions').mpr ?_
  rw [h.at_spot hline, line_instruction (by simp)]
  rfl

/-- A label that is not fresh can be found in the code if it can be found in the result. -/
theorem find_of_find (h : Result s f labels s') {l : Label} {q : Nat}
    (hl : l.id < s.code.nextLabel.id) (hq : s'.positions.find l = .ok q) :
    ∃ j, s.positions.find l = .ok j := by
  obtain ⟨-, hplaced⟩ := h.written.placed h.positions h.bounded
  have hi := (Code.find_iff h.positions').mp hq
  rw [h.getElem?, Option.map_eq_some_iff] at hi
  obtain ⟨e, he, hlabel⟩ := hi
  obtain ⟨-, hnext, -⟩ := h.written.valid h.positions
  rcases spread_cases labels he with ⟨p, -, he⟩ | ⟨p, j, -, -, he⟩
  · have hmem : l ∈ f.placed :=
      List.mem_filterMap.mpr ⟨e, List.mem_of_getElem? he, by simp [hlabel, Instruction.placed?]⟩
    rcases hplaced l hmem with ⟨j, hj⟩ | hfresh
    · exact ⟨j, (Code.find_iff h.positions).mpr hj⟩
    · omega
  · obtain ⟨k, hk, rfl⟩ := mem_marksAt.mp (List.mem_of_getElem? he)
    cases hlabel
    have hle : f.nextLabel.id ≤ l.id := h.fresh _ hk
    omega

/-- **Targets.** Jumps go to what is put for the instruction that they went to. -/
theorem target_iff (h : Result s f labels s') {place : Nat → Nat}
    (hvalid : Valid s f (s.whole place)) (hK : Standing s f (s.whole place) K) (hindex : K.has index)
    (hi : s.code.instructions[index]? = some i) (hjsr : ∀ l, i ≠ .jsr l) {l : Label}
    (hl : l ∈ i.targets) {q : Nat} :
    s'.positions.find (naming K.header l) = .ok q ↔
      ∃ j, s.positions.find l = .ok j ∧ K.has j ∧ q = spot labels (K.place j) := by
  have hsits := (child hvalid hK).1
  constructor
  · intro hq
    obtain ⟨j, hj⟩ : ∃ j, s.positions.find l = .ok j := by
      cases hK with
      | whole =>
        refine h.find_of_find (h.bounded i ?_ l (List.mem_append_right _ hl)) hq
        exact Array.mem_toList_iff.mpr (Array.mem_of_getElem? hi)
      | inner _ _ _ hreplaces _ =>
        obtain ⟨start, body, -, -, hbody, hhas, -⟩ := hreplaces.enters
        obtain ⟨-, hisBody⟩ := Source.body_isBody hbody
        obtain ⟨j, -, hj⟩ := hisBody.targets index ((hhas index).mp hindex) i hi hjsr l hl
        exact ⟨j, hj⟩
    have hhas := hsits.target index i l j hindex hi hjsr hl hj
    cases hq.symm.trans (h.find_naming hsits hhas hj)
    exact ⟨j, hj, hhas, rfl⟩
  · rintro ⟨j, hj, hhas, rfl⟩
    exact h.find_naming hsits hhas hj

/-- Handlers that correspond to one another begin at points that do. -/
theorem stands_entry {place : Nat → Nat} (hK : Standing s f (s.whole place) K)
    (hlost : s.Lost handlers index K.calls lost) {entry q : Nat} (hentry : s.Onward handlers index entry)
    (h : Meets s labels handlers (s.whole place) K entry q) (y : σ) :
    Stands s f labels handlers (s.whole place) ⟨entry, K.calls ++ lost, y⟩ ⟨q, [], y⟩ := by
  rcases h with ⟨hhas, rfl⟩ | ⟨habandons, hhas, rfl⟩
  · exact .intro hK hhas (hlost.onward hentry)
  · exact .of_abandons hhas habandons _

/-- Exceptions go to handlers that correspond to one another. -/
theorem throws_iff {place : Nat → Nat}
    (hcorr : Corresponding s f labels (s.whole place) handlers handlers')
    (hK : Standing s f (s.whole place) K) (hindex : K.has index)
    (hlost : s.Lost handlers index K.calls lost)
    (hi : s.code.instructions[index]? = some i) (i' : Instruction)
    (hi' : i'.placed? = none ↔ i.placed? = none) :
    (∀ a', Source.Throws handlers e i ⟨index, K.calls ++ lost, x⟩ a' →
      ∃ b', Source.Throws handlers' e i' ⟨spot labels (K.place index), [], x⟩ b' ∧
        Stands s f labels handlers (s.whole place) a' b') ∧
    (∀ b', Source.Throws handlers' e i' ⟨spot labels (K.place index), [], x⟩ b' →
      ∃ a', Source.Throws handlers e i ⟨index, K.calls ++ lost, x⟩ a' ∧
        Stands s f labels handlers (s.whole place) a' b') := by
  constructor
  · rintro a' ⟨hlabel, y, he, handler, hhandler, rfl⟩
    obtain ⟨handler', hhandler', -, hentry⟩ :=
      (mem_of_forall₂ (hcorr K hK index i hindex hi hlabel)).1 handler hhandler
    exact ⟨⟨handler'.2, [], y⟩, ⟨hi'.mpr hlabel, y, he, handler', hhandler', rfl⟩,
      stands_entry hK hlost (.throws hi hlabel hhandler) hentry y⟩
  · rintro b' ⟨hlabel, y, he, handler', hhandler', rfl⟩
    have hlabel := hi'.mp hlabel
    obtain ⟨handler, hhandler, -, hentry⟩ :=
      (mem_of_forall₂ (hcorr K hK index i hindex hi hlabel)).2 handler' hhandler'
    exact ⟨⟨handler.2, K.calls ++ lost, y⟩, ⟨hlabel, y, he, handler, hhandler, rfl⟩,
      stands_entry hK hlost (.throws hi hlabel hhandler) hentry y⟩

/-- Control falls to what is put on the next line. -/
theorem toward_next (h : Result s f labels s') (he : e.Blind) {place : Nat → Nat}
    (hK : Standing s f (s.whole place) K) (hindex : K.has index)
    (hlost : s.Lost handlers index K.calls lost) {p : Nat} {line : Emitted}
    (hline : f.lines[p]? = some line) (hp : K.place index = p + 1) :
    Toward (s'.Next handlers' e) (seeOrigin s (spread labels f.lines))
      (Stands s f labels handlers (s.whole place)) ⟨spot labels p + 1, [], x⟩
      ⟨index, K.calls ++ lost, x⟩ := by
  refine h.toward he (p := p + 1) (List.getElem?_eq_some_iff.mp hline).1 ?_
  rw [← hp]
  exact .intro hK hindex hlost

/-- What is seen is the same. -/
theorem see_eq {place : Nat → Nat} (hvalid : Valid s f (s.whole place)) {a b : Point σ}
    (hab : Stands s f labels handlers (s.whole place) a b) :
    seeOrigin s (spread labels f.lines) b = s.see a := by
  obtain ⟨hK, hindex, -⟩ := hab
  rename_i K index lost x
  rcases (child hvalid hK).1.present index hindex with ⟨i, hi⟩ | ⟨hi, hplace⟩
  · obtain ⟨line, hline, horigin⟩ := origin hvalid hK hindex hi
    simp only [seeOrigin, spread_spot labels (List.getElem?_eq_some_iff.mp hline).1.le, hline,
      Option.bind_some, horigin, Source.see]
  · simp only [seeOrigin, hplace, spread_spot labels (Nat.le_refl _), Source.see, Source.shown, hi]
    simp

/-- One step of the code and one of the result. -/
def Steps (s : Source) (f : Output) (labels : List (Nat × Label)) (s' : Source) (e : Effect σ)
    (place : Nat → Nat) (handlers handlers' : Handlers) (a b : Point σ) : Prop :=
  (∀ a', s.Next handlers e a a' → ∃ b', s'.Next handlers' e b b' ∧
    Toward (s'.Next handlers' e) (seeOrigin s (spread labels f.lines))
      (Stands s f labels handlers (s.whole place)) b' a') ∧
  (∀ b', s'.Next handlers' e b b' → ∃ a', s.Next handlers e a a' ∧
    Toward (s'.Next handlers' e) (seeOrigin s (spread labels f.lines))
      (Stands s f labels handlers (s.whole place)) b' a')

variable {place : Nat → Nat}

/-- A `jsr` and the placeholder. -/
theorem steps_jsr (h : Result s f labels s') (he : e.Blind) (hfirst : EntryFirst s)
    (hvalid : Valid s f (s.whole place))
    (hcorr : Corresponding s f labels (s.whole place) handlers handlers')
    (hK : Standing s f (s.whole place) K) (hindex : K.has index)
    (hlost : s.Lost handlers index K.calls lost) {l : Label}
    (hi : s.code.instructions[index]? = some (.jsr l)) :
    Steps s f labels s' e place handlers handlers' ⟨index, K.calls ++ lost, x⟩
      ⟨spot labels (K.place index), [], x⟩ := by
  obtain ⟨header, K', hreplaces, hK'⟩ := (child hvalid hK).2 index l hindex hi
  obtain ⟨start, body, hstart, hslot, hbody, hhas, hplace⟩ := hreplaces.enters
  have hentry : K'.has start := (hhas start).mpr (Source.body_isBody hbody).1
  have hplace := hplace (hfirst _ (Source.mem_subroutines hi hstart hbody))
  have hi' := h.at_spot hreplaces.placeholder
  have htoward : ∀ y, Toward (s'.Next handlers' e) (seeOrigin s (spread labels f.lines))
      (Stands s f labels handlers (s.whole place)) ⟨spot labels (K.place index) + 1, [], y⟩
      ⟨start, ⟨index + 1, header.slot⟩ :: (K.calls ++ lost), y⟩ := by
    intro y
    have hlost' : s.Lost handlers start K'.calls lost := by
      rw [hreplaces.calls]
      exact hlost.onward (.next hi (.inr ⟨l, rfl⟩))
    rw [← List.cons_append, ← hreplaces.calls]
    exact h.toward_next he hK' hentry hlost' hreplaces.placeholder hplace
  obtain ⟨hforth, hback⟩ := throws_iff (e := e) (x := x) hcorr hK hindex hlost hi
    .pushNull (iff_of_true rfl rfl)
  constructor
  · intro a' hnext
    rcases (Source.next_jsr hi).mp hnext with ⟨start', slot', y, hstart', hslot', hrun, rfl⟩ | hthrows
    · cases hstart.symm.trans hstart'
      cases hslot.symm.trans hslot'
      exact ⟨_, .falls hi' rfl hrun, htoward y⟩
    · obtain ⟨b', hb', hstands⟩ := hforth a' hthrows
      exact ⟨b', Source.next_of_throws hi' hb', .here hstands⟩
  · intro b' hnext
    rcases (Source.next_iff hi' (by simp) (by simp)).mp hnext with ⟨y, hrun, hfalls⟩ | hthrows
    · simp only [Instruction.fallsThrough, Instruction.targets, List.not_mem_nil, false_and,
        exists_false, or_false, true_and] at hfalls
      cases hfalls
      exact ⟨_, .enters hi hstart hslot hrun, htoward y⟩
    · obtain ⟨a', ha', hstands⟩ := hback b' hthrows
      exact ⟨a', Source.next_of_throws hi ha', .here hstands⟩

/-- A `ret` and the jump to the end of the copy. -/
theorem steps_ret (h : Result s f labels s') (he : e.Blind) (hvalid : Valid s f (s.whole place))
    (hcorr : Corresponding s f labels (s.whole place) handlers handlers')
    (hK : Standing s f (s.whole place) K) (hindex : K.has index)
    (hlost : s.Lost handlers index K.calls lost) {slot : Nat}
    (hi : s.code.instructions[index]? = some (.ret slot)) :
    Steps s f labels s' e place handlers handlers' ⟨index, K.calls ++ lost, x⟩
      ⟨spot labels (K.place index), [], x⟩ := by
  have hi' := h.at_spot ((child hvalid hK).1.line index _ hindex hi (by simp)).2
  cases hK with
  | whole =>
    -- outside of all copies there is nowhere to return to
    obtain ⟨hforth, hback⟩ :=
      throws_iff (e := e) (x := x) hcorr .whole hindex hlost hi (.ret slot) Iff.rfl
    obtain rfl : lost = [] := hlost.resolve_right fun habandons => habandons.not_ret slot hi
    constructor
    · intro a' hnext
      rcases (Source.next_ret hi).mp hnext with ⟨back, rest, hcalls, -⟩ | hthrows
      · cases hcalls
      · obtain ⟨b', hb', hstands⟩ := hforth a' hthrows
        exact ⟨b', Source.next_of_throws hi' hb', .here hstands⟩
    · intro b' hnext
      rcases (Source.next_ret hi').mp hnext with ⟨back, rest, hcalls, -⟩ | hthrows
      · cases hcalls
      · obtain ⟨a', ha', hstands⟩ := hback b' hthrows
        exact ⟨a', Source.next_of_throws hi ha', .here hstands⟩
  | @inner K₀ _ header call l outer hcall hl hreplaces hinner =>
    rw [hreplaces.copied] at hi'
    obtain rfl := hreplaces.returns index slot hindex hi
    obtain ⟨r, hstop, hdone⟩ := hreplaces.done
    obtain ⟨hhas, hplace⟩ := (child hvalid outer).1.next call _ hcall hl (.inr ⟨l, rfl⟩)
    have hlost' : s.Lost handlers (call + 1) K₀.calls lost := by
      rw [hreplaces.calls] at hlost
      exact hlost
    have htoward : Toward (s'.Next handlers' e) (seeOrigin s (spread labels f.lines))
        (Stands s f labels handlers (s.whole place)) ⟨spot labels r, [], x⟩
        ⟨call + 1, K₀.calls ++ lost, x⟩ := by
      refine .pass ?_ (fun b => Source.next_label he (h.at_spot hdone))
        (h.toward_next he outer hhas hlost' hdone (hplace.trans hstop))
      simp [seeOrigin, spread_spot labels (List.getElem?_eq_some_iff.mp hdone).1.le, hdone]
    obtain ⟨hforth, hback⟩ := throws_iff (e := e) (x := x) hcorr
      (.inner outer hcall hl hreplaces hinner) hindex hlost hi (.goto header.done)
      (iff_of_true rfl rfl)
    rw [hreplaces.calls, List.cons_append] at hforth hback ⊢
    constructor
    · intro a' hnext
      rcases (Source.next_ret hi).mp hnext with ⟨back, rest, hcalls, rfl⟩ | hthrows
      · cases hcalls
        exact ⟨_, .jumps hi' (by simp [line, Header.rewrite]) (List.mem_singleton_self _)
          (h.find hdone) ((he.goto ..).mpr rfl), htoward⟩
      · obtain ⟨b', hb', hstands⟩ := hforth a' hthrows
        exact ⟨b', Source.next_of_throws hi' hb', .here hstands⟩
    · intro b' hnext
      rcases (Source.next_iff hi' (by simp [line, Header.rewrite])
        (by simp [line, Header.rewrite])).mp hnext with ⟨y, hrun, hjump⟩ | hthrows
      · obtain rfl := (he.goto ..).mp hrun
        simp only [line, Header.rewrite, Instruction.fallsThrough, Instruction.targets,
          List.mem_singleton, exists_eq_left, h.find hdone, Except.ok.injEq, Bool.false_eq_true,
          false_and, false_or, exists_eq_left'] at hjump
        cases hjump
        exact ⟨_, .returns hi, htoward⟩
      · obtain ⟨a', ha', hstands⟩ := hback b' hthrows
        exact ⟨a', Source.next_of_throws hi ha', .here hstands⟩

/-- All other instructions. -/
theorem steps_plain (h : Result s f labels s') (he : e.Blind) (hvalid : Valid s f (s.whole place))
    (hcorr : Corresponding s f labels (s.whole place) handlers handlers')
    (hK : Standing s f (s.whole place) K) (hindex : K.has index)
    (hlost : s.Lost handlers index K.calls lost)
    (hi : s.code.instructions[index]? = some i) (hjsr : ∀ l, i ≠ .jsr l)
    (hret : ∀ slot, i ≠ .ret slot) :
    Steps s f labels s' e place handlers handlers' ⟨index, K.calls ++ lost, x⟩
      ⟨spot labels (K.place index), [], x⟩ := by
  have hsits := (child hvalid hK).1
  obtain ⟨hstop, hline⟩ := hsits.line index i hindex hi hjsr
  have hi' := h.at_spot hline
  rw [line_instruction hret] at hi'
  have hjsr' : ∀ l, i.mapLabels (naming K.header) ≠ .jsr l := mapLabels_ne_jsr hjsr
  have hret' : ∀ slot, i.mapLabels (naming K.header) ≠ .ret slot := by
    cases i <;> simp_all [Instruction.mapLabels]
  obtain ⟨hforth, hback⟩ := throws_iff (e := e) (x := x) hcorr hK hindex hlost hi
    (i.mapLabels (naming K.header)) (by simp [placed?_mapLabels])
  have htoward : i.fallsThrough = true → ∀ y, Toward (s'.Next handlers' e)
      (seeOrigin s (spread labels f.lines)) (Stands s f labels handlers (s.whole place))
      ⟨spot labels (K.place index) + 1, [], y⟩ ⟨index + 1, K.calls ++ lost, y⟩ := by
    intro hfalls y
    obtain ⟨hhas, hplace⟩ := hsits.next index i hindex hi (.inl hfalls)
    exact h.toward_next he hK hhas (hlost.onward (.next hi (.inl hfalls))) hline (hplace.trans hstop)
  constructor
  · intro a' hnext
    rcases (Source.next_iff hi hjsr hret).mp hnext with ⟨y, hrun, hgoes⟩ | hthrows
    · have hrun' := (he.mapLabels i (naming K.header) x y).mpr hrun
      rcases hgoes with ⟨hfalls, rfl⟩ | ⟨l, hl, target, htarget, rfl⟩
      · exact ⟨_, .falls hi' ((fallsThrough_mapLabels ..).trans hfalls) hrun', htoward hfalls y⟩
      · have hhas := hsits.target index i l target hindex hi hjsr hl htarget
        refine ⟨_, .jumps hi' hjsr' (l := naming K.header l) ?_ (h.find_naming hsits hhas htarget)
          hrun', .here (.intro hK hhas (hlost.onward (.jumps hi hjsr hl htarget)))⟩
        rw [targets_mapLabels]
        exact List.mem_map_of_mem hl
    · obtain ⟨b', hb', hstands⟩ := hforth a' hthrows
      exact ⟨b', Source.next_of_throws hi' hb', .here hstands⟩
  · intro b' hnext
    rcases (Source.next_iff hi' hjsr' hret').mp hnext with ⟨y, hrun, hgoes⟩ | hthrows
    · have hrun' := (he.mapLabels i (naming K.header) x y).mp hrun
      rcases hgoes with ⟨hfalls, rfl⟩ | ⟨l', hl', q, hq, rfl⟩
      · have hfalls := (fallsThrough_mapLabels ..).symm.trans hfalls
        exact ⟨_, .falls hi hfalls hrun', htoward hfalls y⟩
      · rw [targets_mapLabels] at hl'
        obtain ⟨l, hl, rfl⟩ := List.mem_map.mp hl'
        obtain ⟨j, hj, hhas, rfl⟩ := (h.target_iff hvalid hK hindex hi hjsr hl).mp hq
        exact ⟨_, .jumps hi hjsr hl hj hrun',
          .here (.intro hK hhas (hlost.onward (.jumps hi hjsr hl hj)))⟩
    · obtain ⟨a', ha', hstands⟩ := hback b' hthrows
      exact ⟨a', Source.next_of_throws hi ha', .here hstands⟩

/-- Where the code ends, so does the result. -/
theorem steps_end (h : Result s f labels s') (hi : s.code.instructions[index]? = none)
    (hplace : K.place index = f.lines.length) :
    Steps s f labels s' e place handlers handlers' ⟨index, K.calls ++ lost, x⟩
      ⟨spot labels (K.place index), [], x⟩ := by
  have hi' : s'.code.instructions[spot labels (K.place index)]? = none := by
    rw [h.getElem?, hplace, spread_spot labels (Nat.le_refl _)]
    simp
  have hnone : ∀ {t : Source} {handlers : Handlers} {q : Nat} {calls : List Call} {b : Point σ},
      t.code.instructions[q]? = none → ¬ t.Next handlers e ⟨q, calls, x⟩ b := by
    intro t handlers q calls b hq hnext
    cases hnext <;> simp_all
  exact ⟨fun a' hnext => absurd hnext (hnone hi), fun b' hnext => absurd hnext (hnone hi')⟩

/-- **Steps.** Control goes on in the code and in the result in the same way. -/
theorem matching (h : Result s f labels s') (he : e.Blind) (hfirst : EntryFirst s)
    (hvalid : Valid s f (s.whole place))
    (hcorr : Corresponding s f labels (s.whole place) handlers handlers') :
    Matching (s.Next handlers e) s.see (s'.Next handlers' e) (seeOrigin s (spread labels f.lines))
      (Stands s f labels handlers (s.whole place)) := by
  have hsteps : ∀ {a b : Point σ}, Stands s f labels handlers (s.whole place) a b →
      Steps s f labels s' e place handlers handlers' a b := by
    intro a b hab
    obtain ⟨hK, hindex, hlost⟩ := hab
    rename_i K index lost x
    rcases (child hvalid hK).1.present index hindex with ⟨i, hi⟩ | ⟨hi, hplace⟩
    · by_cases hjsr : ∃ l, i = .jsr l
      · obtain ⟨l, rfl⟩ := hjsr
        exact h.steps_jsr he hfirst hvalid hcorr hK hindex hlost hi
      · by_cases hret : ∃ slot, i = .ret slot
        · obtain ⟨slot, rfl⟩ := hret
          exact h.steps_ret he hvalid hcorr hK hindex hlost hi
        · exact h.steps_plain he hvalid hcorr hK hindex hlost hi (fun l hl => hjsr ⟨l, hl⟩)
            fun slot hslot => hret ⟨slot, hslot⟩
    · exact h.steps_end hi hplace
  exact ⟨see_eq hvalid, fun hab hnext => (hsteps hab).1 _ hnext,
    fun hab hnext => (hsteps hab).2 _ hnext⟩

end Result

end Resumption.Subroutine
