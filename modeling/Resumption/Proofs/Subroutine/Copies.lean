import Resumption.Proofs.Subroutine.Bodies

/-!
# How copies stand in the output

The instructions of a body and those of each copy stand in the output one after the other
(`Scope`). What is put for a `jsr` is a whole copy, which is such a scope again (`Valid`). Lines stay
where they are when more is written after them (`Output.Grows`), so all this can be shown for each
call when it is inlined (`inlineCall_valid`).
-/

namespace Resumption.Subroutine

namespace Output

/-- The instructions that were written, in order. -/
def lines (o : Output) : List Emitted := o.emitted.reverse

/-- The fresh names of each copy, in order. -/
def copies (o : Output) : List (List (Label × Label)) := o.renamings.reverse

/-- More was written, and more labels were used. -/
structure Grows (o f : Output) : Prop where
  /-- lines are only added -/
  lines : o.lines <+: f.lines
  /-- copies are only added -/
  copies : o.copies <+: f.copies
  /-- labels that are used stay used -/
  nextLabel : o.nextLabel.id ≤ f.nextLabel.id

namespace Grows

variable {o o' f : Output}

/-- An output grows to itself. -/
theorem refl (o : Output) : o.Grows o := ⟨List.prefix_rfl, List.prefix_rfl, Nat.le_refl _⟩

/-- What grows twice grows. -/
theorem trans (h : o.Grows o') (h' : o'.Grows f) : o.Grows f :=
  ⟨h.lines.trans h'.lines, h.copies.trans h'.copies, Nat.le_trans h.nextLabel h'.nextLabel⟩

/-- Lines stay where they are. -/
theorem getElem? (h : o.Grows f) {p : Nat} {e : Emitted} (he : o.lines[p]? = some e) :
    f.lines[p]? = some e := by
  obtain ⟨rest, hrest⟩ := h.lines
  rw [← hrest, List.getElem?_append_left (List.getElem?_eq_some_iff.mp he).1]
  exact he

/-- Copies stay where they are. -/
theorem copy (h : o.Grows f) {k : Nat} {names : List (Label × Label)}
    (hk : o.copies[k]? = some names) : f.copies[k]? = some names := by
  obtain ⟨rest, hrest⟩ := h.copies
  rw [← hrest, List.getElem?_append_left (List.getElem?_eq_some_iff.mp hk).1]
  exact hk

end Grows

/-- Emitting adds one line. -/
@[simp]
theorem lines_emit (o : Output) (i : Instruction) (origin copy : Option Nat) :
    (o.emit i origin copy).lines = o.lines ++ [⟨i, origin, copy⟩] := by
  simp [lines, emit]

@[simp]
theorem copies_emit (o : Output) (i : Instruction) (origin copy : Option Nat) :
    (o.emit i origin copy).copies = o.copies := rfl

@[simp]
theorem nextLabel_emit (o : Output) (i : Instruction) (origin copy : Option Nat) :
    (o.emit i origin copy).nextLabel = o.nextLabel := rfl

/-- An output grows by emitting. -/
theorem grows_emit (o : Output) (i : Instruction) (origin copy : Option Nat) :
    o.Grows (o.emit i origin copy) :=
  ⟨by rw [lines_emit]; exact List.prefix_append _ _, List.prefix_rfl, Nat.le_refl _⟩

/-- The emitted line comes last. -/
theorem getElem?_emit (o : Output) (i : Instruction) (origin copy : Option Nat) :
    (o.emit i origin copy).lines[o.lines.length]? = some ⟨i, origin, copy⟩ := by
  rw [lines_emit]
  exact List.getElem?_concat_length

/-- The fresh names are consecutive. -/
theorem freshNames_eq (o : Output) (labels : List Label) :
    o.freshNames labels =
      (labels.zipIdx.map fun x => (x.1, ⟨o.nextLabel.id + x.2⟩),
        { o with nextLabel := ⟨o.nextLabel.id + labels.length⟩ }) := by
  have hfold : ∀ (labels : List Label) (names : List (Label × Label)) (o : Output),
      labels.foldl (fun (x : List (Label × Label) × Output) l =>
          (x.1 ++ [(l, x.2.nextLabel)], { x.2 with nextLabel := x.2.nextLabel.next })) (names, o) =
        (names ++ labels.zipIdx.map (fun x => (x.1, ⟨o.nextLabel.id + x.2⟩)),
          { o with nextLabel := ⟨o.nextLabel.id + labels.length⟩ }) := by
    intro labels
    induction labels with
    | nil =>
      intro names o
      simp
    | cons l labels ih =>
      intro names o
      rw [List.foldl_cons, ih]
      simp only [List.zipIdx_cons, List.map_cons, List.length_cons, Label.next, List.append_assoc,
        List.singleton_append, Nat.add_zero, Prod.mk.injEq, List.append_cancel_left_eq,
        List.cons.injEq, true_and]
      refine ⟨?_, by rw [Nat.add_assoc, Nat.add_comm 1]⟩
      rw [Nat.zero_add, List.zipIdx_succ, List.map_map]
      refine List.map_congr_left fun x _ => ?_
      simp only [Function.comp_apply, Prod.mk.injEq, Label.mk.injEq, true_and]
      omega
  exact hfold labels [] o

end Output

/-- The name that a label has among others; the same if it has none. -/
def renamed (names : List (Label × Label)) (l : Label) : Label := (names.lookup l).getD l

/-! ## Inlining, step by step -/

/-- What is the same for all instructions of a copy. -/
structure Header where
  /-- the label of the subroutine -/
  target : Label
  /-- where the subroutine keeps its return address -/
  slot : Nat
  /-- the fresh names of the labels in the copy -/
  names : List (Label × Label)
  /-- the number of the copy -/
  copy : Nat
  /-- the label at the end of the copy -/
  done : Label

/-- An instruction as it is in the copy. A `ret` goes to the end of the copy. -/
def Header.rewrite (header : Header) : Instruction → Instruction
  | .ret _ => .goto header.done
  | i => i.mapLabels (renamed header.names)

namespace Source

variable {s : Source} {o o' : Output}

/-- The labels that are placed in a body. -/
def placedIn (s : Source) (body : List Nat) : List Label :=
  body.filterMap fun index => (s.code.instructions[index]?).bind Instruction.placed?

/-- The header of the next copy. -/
def header (s : Source) (o : Output) (target : Label) (slot : Nat) (body : List Nat) : Header where
  target
  slot
  names := (s.placedIn body).zipIdx.map fun x => (x.1, ⟨o.nextLabel.id + x.2⟩)
  copy := o.renamings.length
  done := ⟨o.nextLabel.id + (s.placedIn body).length⟩

/-- Labels that are not placed in the body keep their names. -/
theorem renamed_other (target : Label) (slot : Nat) {body : List Nat} {l : Label}
    (hl : l ∉ s.placedIn body) : renamed (s.header o target slot body).names l = l := by
  have hnone : (s.header o target slot body).names.lookup l = none := by
    rw [List.lookup_eq_none_iff]
    intro x hx
    obtain ⟨y, hy, rfl⟩ := List.mem_map.mp hx
    rw [bne_iff_ne]
    rintro rfl
    exact hl (List.fst_mem_of_mem_zipIdx hy)
  rw [renamed, hnone]
  rfl

/-- Begins a copy: null stands in for the return address. -/
def opened (o : Output) (call : Nat) (header : Header) : Output where
  emitted := ⟨.pushNull, some call, some header.copy⟩ :: o.emitted
  renamings := header.names :: o.renamings
  nextLabel := header.done.next

/-- Copies one instruction. -/
def copyStep (s : Source) (fuel : Nat) (active : List Label) (header : Header) (o : Output)
    (index : Nat) : Except CodeError Output :=
  match s.code.instructions[index]? with
  | some (.ret found) =>
    if found = header.slot then .ok (o.emit (.goto header.done) (some index) (some header.copy))
    else .error (.unanalyzable (.otherReturnAddress header.target found header.slot))
  | some (.jsr nested) => s.inlineCall fuel index nested (header.target :: active) o
  | some i => .ok (o.emit (i.mapLabels (renamed header.names)) (some index) (some header.copy))
  | none => .ok o

/-- What happens when one instruction is copied. -/
theorem copyStep_cases {fuel : Nat} {active : List Label} {header : Header} {index : Nat}
    {i : Instruction} (hi : s.code.instructions[index]? = some i)
    (h : s.copyStep fuel active header o index = .ok o') :
    (∃ l, i = .jsr l ∧ s.inlineCall fuel index l (header.target :: active) o = .ok o') ∨
    ((∀ l, i ≠ .jsr l) ∧ (∀ slot, i = .ret slot → slot = header.slot) ∧
      o' = o.emit (header.rewrite i) (some index) (some header.copy)) := by
  rw [copyStep, hi] at h
  cases i with
  | ret found =>
    simp only at h
    split at h
    · rename_i hslot
      cases h
      exact .inr ⟨by simp, by simp [hslot], rfl⟩
    · cases h
  | jsr l => exact .inl ⟨l, rfl, h⟩
  | _ =>
    cases h
    exact .inr ⟨by simp, by simp, rfl⟩

/-- What has to be known of a subroutine before it is copied: where it keeps its return address, and
its body. -/
def slotAndBody (s : Source) (target : Label) : Except CodeError (Nat × List Nat) := do
  let start ← s.position target
  let slot ← s.returnSlot target start
  let body ← s.body start
  return (slot, body)

/-- A subroutine that is read has a start, a slot and a body. -/
theorem slotAndBody_ok {target : Label} {slot : Nat} {body : List Nat}
    (h : s.slotAndBody target = .ok (slot, body)) : ∃ start, s.positions.find target = .ok start ∧
      s.returnSlot target start = .ok slot ∧ s.body start = .ok body := by
  obtain ⟨start, hstart, h⟩ := Except.bind_ok.mp h
  obtain ⟨slot, hslot, h⟩ := Except.bind_ok.mp h
  obtain ⟨body, hbody, h⟩ := Except.bind_ok.mp h
  cases h
  exact ⟨start, position_ok hstart, hslot, hbody⟩

/-- What is done for a call. -/
theorem inlineCall_succ (fuel call : Nat) (target : Label) (active : List Label) (o : Output) :
    s.inlineCall (fuel + 1) call target active o =
      if active.contains target then .error (.unanalyzable (.recursiveSubroutine target))
      else s.slotAndBody target >>= fun x =>
        x.2.foldlM (s.copyStep fuel active (s.header o target x.1 x.2))
          (opened o call (s.header o target x.1 x.2)) >>= fun o₁ =>
            .ok (o₁.emit (.label (s.header o target x.1 x.2).done) none none) := by
  rw [inlineCall, slotAndBody]
  split
  · rfl
  · simp only [Output.freshNames_eq, bind_assoc, pure_bind]
    rfl

/-- What happened if a call was inlined. -/
theorem inlineCall_inv {fuel call : Nat} {target : Label} {active : List Label}
    (h : s.inlineCall (fuel + 1) call target active o = .ok o') : ∃ start slot body o₁,
      s.positions.find target = .ok start ∧ s.returnSlot target start = .ok slot ∧
      s.body start = .ok body ∧
      body.foldlM (s.copyStep fuel active (s.header o target slot body))
        (opened o call (s.header o target slot body)) = .ok o₁ ∧
      o' = o₁.emit (.label (s.header o target slot body).done) none none := by
  rw [inlineCall_succ] at h
  split at h
  · cases h
  obtain ⟨⟨slot, body⟩, hbody, h⟩ := Except.bind_ok.mp h
  obtain ⟨start, hstart, hslot, hbody⟩ := slotAndBody_ok hbody
  obtain ⟨o₁, hfold, h⟩ := Except.bind_ok.mp h
  cases h
  exact ⟨start, slot, body, o₁, hstart, hslot, hbody, hfold, rfl⟩

end Source

/-! ## Scopes -/

/-- A body, or a copy of one, and where its instructions stand in the output. -/
structure Scope where
  /-- which instructions it has -/
  has : Nat → Prop
  /-- where they are put -/
  place : Nat → Nat
  /-- where what is put for them ends -/
  stop : Nat → Nat
  /-- what is the same for all instructions, if it is a copy -/
  header : Option Header
  /-- the calls that it is a copy for -/
  calls : List Call

/-- The line for an instruction that is no `jsr`. -/
def line (header : Option Header) (index : Nat) (i : Instruction) : Emitted :=
  match header with
  | none => ⟨i, some index, none⟩
  | some header => ⟨header.rewrite i, some index, some header.copy⟩

namespace Scope

/-- Every instruction is where it should be. Control stays in the scope, apart from calls and
returns. -/
structure Sits (K : Scope) (s : Source) (f : Output) : Prop where
  /-- there is an instruction, or it is the end -/
  present : ∀ index, K.has index → (∃ i, s.code.instructions[index]? = some i) ∨
    s.code.instructions[index]? = none ∧ K.place index = f.lines.length
  /-- what follows is put behind -/
  next : ∀ index i, K.has index → s.code.instructions[index]? = some i →
    (i.fallsThrough = true ∨ ∃ l, i = .jsr l) →
    K.has (index + 1) ∧ K.place (index + 1) = K.stop index
  /-- targets are in the scope -/
  target : ∀ index i l j, K.has index → s.code.instructions[index]? = some i → (∀ l, i ≠ .jsr l) →
    l ∈ i.targets → s.positions.find l = .ok j → K.has j
  /-- one line for each instruction that is no `jsr` -/
  line : ∀ index i, K.has index → s.code.instructions[index]? = some i → (∀ l, i ≠ .jsr l) →
    K.stop index = K.place index + 1 ∧ f.lines[K.place index]? = some (line K.header index i)

/-- The scope is a copy of the subroutine at a label, and stands in place of the `jsr` at an index,
from line `p` up to line `q`: null, the instructions of the copy, and the label at its end. If the
entry of the subroutine comes first in its body, the copy begins with it. -/
structure Replaces (K : Scope) (s : Source) (f : Output) (header : Header) (calls : List Call)
    (index : Nat) (l : Label) (p q : Nat) : Prop where
  /-- it is a copy -/
  copied : K.header = some header
  /-- for this call and those around it -/
  calls : K.calls = ⟨index + 1, header.slot⟩ :: calls
  /-- with its names -/
  copy : f.copies[header.copy]? = some header.names
  /-- labels of other places keep theirs -/
  named : ∀ l, (∀ j, K.has j → s.code.instructions[j]? ≠ some (.label l)) → renamed header.names l = l
  /-- it is a copy of the subroutine that is called -/
  enters : ∃ start body, s.positions.find l = .ok start ∧ s.returnSlot l start = .ok header.slot ∧
    s.body start = .ok body ∧ (∀ j, K.has j ↔ j ∈ body) ∧
    ((∀ j ∈ body, start ≤ j) → K.place start = p + 1)
  /-- all returns are its own -/
  returns : ∀ j slot, K.has j → s.code.instructions[j]? = some (.ret slot) → slot = header.slot
  /-- it is between the placeholder and its end -/
  inside : ∀ j, K.has j → p < K.place j ∧ K.place j ≤ K.stop j ∧ K.stop j < q
  /-- there is nothing else in between -/
  tiles : ∀ r, p < r → r + 1 < q → ∃ j, K.has j ∧ K.place j ≤ r ∧ r < K.stop j
  /-- null stands in for the return address -/
  placeholder : f.lines[p]? = some ⟨.pushNull, some index, some header.copy⟩
  /-- a label marks the end -/
  done : ∃ r, q = r + 1 ∧ f.lines[r]? = some ⟨.label header.done, none, none⟩

end Scope

/-- Everything in the scope is where it should be, and so are the copies in it. -/
inductive Valid (s : Source) (f : Output) : Scope → Prop
  /-- what is in it is where it should be, and so is what is put for calls -/
  | intro {K : Scope} (sits : K.Sits s f)
    (child : ∀ index l, K.has index → s.code.instructions[index]? = some (.jsr l) → Scope)
    (replaces : ∀ index l hindex hl, ∃ header, (child index l hindex hl).Replaces s f header K.calls
      index l (K.place index) (K.stop index))
    (inner : ∀ index l hindex hl, Valid s f (child index l hindex hl)) : Valid s f K

/-! ## One instruction after the other -/

/-- What a step of a fold keeps, the fold keeps. -/
theorem foldlM_keeps {ε α β : Type} {P : β → Prop} {f : β → α → Except ε β} {xs : List α} {b b' : β}
    (hstep : ∀ x ∈ xs, ∀ b b', P b → f b x = .ok b' → P b') (hb : P b)
    (h : xs.foldlM f b = .ok b') : P b' := by
  induction xs generalizing b with
  | nil =>
    cases h
    exact hb
  | cons x xs ih =>
    rw [List.foldlM_cons] at h
    obtain ⟨b₁, hx, hrest⟩ := Except.bind_ok.mp h
    exact ih (fun y hy => hstep y (List.mem_cons_of_mem _ hy))
      (hstep x (List.mem_cons_self ..) b b₁ hb hx) hrest

/-- Every step of a fold was made. -/
theorem step_of_foldlM {ε α β : Type} {f : β → α → Except ε β} {xs : List α} {b b' : β}
    (h : xs.foldlM f b = .ok b') {x : α} (hx : x ∈ xs) : ∃ c c', f c x = .ok c' := by
  induction xs generalizing b with
  | nil => cases hx
  | cons y xs ih =>
    rw [List.foldlM_cons] at h
    obtain ⟨c, hc, h⟩ := Except.bind_ok.mp h
    rcases List.mem_cons.mp hx with rfl | hx
    · exact ⟨b, c, hc⟩
    · exact ih h hx

/-- What is put for the elements of a list, one after the other: `place k` is where the element with
number `k` is put. -/
theorem foldlM_places {α : Type} {step : Output → α → Except CodeError Output}
    {P : α → Nat → Nat → Output → Prop} {xs : List α}
    (hstep : ∀ x ∈ xs, ∀ o o', step o x = .ok o' →
      o.Grows o' ∧ ∀ f, o'.Grows f → P x o.lines.length o'.lines.length f)
    {o o' : Output} (h : xs.foldlM step o = .ok o') :
    o.Grows o' ∧ ∃ place : Nat → Nat, place 0 = o.lines.length ∧
      place xs.length = o'.lines.length ∧
      (∀ j k, j ≤ k → k ≤ xs.length → place j ≤ place k) ∧
      (∀ k x, xs[k]? = some x → ∀ f, o'.Grows f → P x (place k) (place (k + 1)) f) := by
  -- places are lengths of the output, which only grows
  induction xs generalizing o with
  | nil =>
    cases h
    exact ⟨.refl o', fun _ => o'.lines.length, rfl, rfl, by simp, by simp⟩
  | cons x xs ih =>
    rw [List.foldlM_cons] at h
    obtain ⟨o₁, hx, h⟩ := Except.bind_ok.mp h
    obtain ⟨hgrows, hitem⟩ := hstep x (List.mem_cons_self ..) o o₁ hx
    obtain ⟨hgrows', place, hfirst, hlast, hmono, hitems⟩ :=
      ih (fun y hy => hstep y (List.mem_cons_of_mem _ hy)) h
    have hle : o.lines.length ≤ place 0 := hfirst ▸ hgrows.lines.length_le
    refine ⟨hgrows.trans hgrows', fun k => Nat.casesOn (motive := fun _ => Nat) k o.lines.length place,
      rfl, hlast, ?_, ?_⟩
    · intro j k hjk hk
      cases k with
      | zero =>
        obtain rfl : j = 0 := by omega
        exact Nat.le_refl _
      | succ k =>
        rw [List.length_cons] at hk
        cases j with
        | zero => exact hle.trans (hmono 0 k (Nat.zero_le _) (by omega))
        | succ j => exact hmono j k (by omega) (by omega)
    · intro k y hy f hf
      cases k with
      | zero =>
        cases hy
        show P x o.lines.length (place 0) f
        rw [hfirst]
        exact hitem f (hgrows'.trans hf)
      | succ k => exact hitems k y hy f hf

/-- Every number up to the last is between two neighbours. -/
theorem exists_between (place : Nat → Nat) {n r : Nat} (hfirst : place 0 ≤ r) (hlast : r < place n) :
    ∃ k < n, place k ≤ r ∧ r < place (k + 1) := by
  induction n with
  | zero => omega
  | succ n ih =>
    by_cases hr : r < place n
    · obtain ⟨k, hk, hbetween⟩ := ih hr
      exact ⟨k, by omega, hbetween⟩
    · exact ⟨n, by omega, by omega, hlast⟩

/-- Nothing comes between a number and the next one. -/
theorem idxOf_succ {body : List Nat} (hbody : body.Pairwise (· < ·)) {n : Nat} (hn : n ∈ body)
    (hnext : n + 1 ∈ body) : body.idxOf (n + 1) = body.idxOf n + 1 := by
  induction body with
  | nil => cases hn
  | cons m rest ih =>
    obtain ⟨hfirst, hrest⟩ := List.pairwise_cons.mp hbody
    rcases List.mem_cons.mp hn with rfl | hn
    · have hnext : n + 1 ∈ rest := by simpa using hnext
      -- whatever comes first in the rest is above `n` and not above `n + 1`
      cases rest with
      | nil => cases hnext
      | cons k rest =>
        have hk : n < k := hfirst k (List.mem_cons_self ..)
        obtain rfl : n + 1 = k := by
          rcases List.mem_cons.mp hnext with heq | hmem
          · exact heq
          · have := (List.pairwise_cons.mp hrest).1 _ hmem
            omega
        rw [List.idxOf_cons_ne _ (Nat.ne_of_lt hk), List.idxOf_cons_self, List.idxOf_cons_self]
    · have hm : m < n := hfirst n hn
      have hnext : n + 1 ∈ rest := by
        rcases List.mem_cons.mp hnext with rfl | hnext
        · omega
        · exact hnext
      rw [List.idxOf_cons_ne _ (by omega), List.idxOf_cons_ne _ (by omega), ih hrest hn hnext]

/-- The least item of a sorted list comes first. -/
theorem idxOf_least {body : List Nat} (hbody : body.Pairwise (· < ·)) {n : Nat} (hn : n ∈ body)
    (hleast : ∀ m ∈ body, n ≤ m) : body.idxOf n = 0 := by
  cases body with
  | nil => cases hn
  | cons m rest =>
    rcases List.mem_cons.mp hn with rfl | hmem
    · exact List.idxOf_cons_self
    · have := hleast m (List.mem_cons_self ..)
      have := (List.pairwise_cons.mp hbody).1 n hmem
      omega

/-! ## Calls -/

variable {s : Source} {o o' : Output}

/-- A copy starts with a null in place of the return address. -/
theorem lines_opened (call : Nat) (header : Header) :
    (Source.opened o call header).lines =
      o.lines ++ [⟨.pushNull, some call, some header.copy⟩] := by
  simp [Output.lines, Source.opened]

/-- A copy is opened with its names. -/
theorem copies_opened (call : Nat) (header : Header) :
    (Source.opened o call header).copies = o.copies ++ [header.names] := by
  simp [Output.copies, Source.opened]

/-- An output grows by opening a copy. -/
theorem grows_opened (call : Nat) (target : Label) (slot : Nat) (body : List Nat) :
    o.Grows (Source.opened o call (s.header o target slot body)) where
  lines := lines_opened call _ ▸ List.prefix_append ..
  copies := copies_opened call _ ▸ List.prefix_append ..
  nextLabel := by
    simp only [Source.opened, Source.header, Label.next]
    omega

/-- What is put for an instruction of a scope, from line `p` up to line `q`. -/
def Put (s : Source) (header : Option Header) (calls : List Call) (index : Nat) (i : Instruction)
    (p q : Nat) (f : Output) : Prop :=
  (∃ l, i = .jsr l ∧
    ∃ header' K, K.Replaces s f header' calls index l p q ∧ Valid s f K) ∨
  (∀ l, i ≠ .jsr l) ∧ q = p + 1 ∧ f.lines[p]? = some (line header index i)

/-- A scope is valid if everything is put where it should be. -/
theorem Valid.of_put {f : Output} {K : Scope}
    (hpresent : ∀ index, K.has index → (∃ i, s.code.instructions[index]? = some i) ∨
      s.code.instructions[index]? = none ∧ K.place index = f.lines.length)
    (hnext : ∀ index i, K.has index → s.code.instructions[index]? = some i →
      (i.fallsThrough = true ∨ ∃ l, i = .jsr l) →
      K.has (index + 1) ∧ K.place (index + 1) = K.stop index)
    (htarget : ∀ index i l j, K.has index → s.code.instructions[index]? = some i →
      (∀ l, i ≠ .jsr l) → l ∈ i.targets → s.positions.find l = .ok j → K.has j)
    (hput : ∀ index i, K.has index → s.code.instructions[index]? = some i →
      Put s K.header K.calls index i (K.place index) (K.stop index) f) : Valid s f K := by
  have hjsr : ∀ index l, K.has index → s.code.instructions[index]? = some (.jsr l) →
      ∃ K', (∃ header, K'.Replaces s f header K.calls index l (K.place index) (K.stop index)) ∧
        Valid s f K' := by
    intro index l hindex hl
    rcases hput index _ hindex hl with ⟨l', hl', header, K', hreplaces, hvalid⟩ | ⟨hne, -⟩
    · cases hl'
      exact ⟨K', ⟨header, hreplaces⟩, hvalid⟩
    · exact absurd rfl (hne l)
  choose child hreplaces hinner using hjsr
  refine .intro ⟨hpresent, hnext, htarget, fun index i hindex hi hne => ?_⟩ child hreplaces hinner
  rcases hput index i hindex hi with ⟨l, rfl, -⟩ | ⟨-, hline⟩
  · exact absurd rfl (hne l)
  · exact hline

/-- The same in a copy, where a `ret` has to be on the local of the subroutine. -/
def Header.Puts (header : Header) (s : Source) (calls : List Call) (index p q : Nat) (f : Output) :
    Prop :=
  ∀ i, s.code.instructions[index]? = some i →
    (∀ slot, i = .ret slot → slot = header.slot) ∧ Put s (some header) calls index i p q f

/-- The copy of a body whose instructions are put one after the other. -/
def Header.scope (header : Header) (body : List Nat) (place : Nat → Nat) (calls : List Call) :
    Scope where
  has index := index ∈ body
  place index := place (body.idxOf index)
  stop index := place (body.idxOf index + 1)
  header := some header
  calls

/-- **Calls.** What is put for a `jsr` is a copy of the subroutine, in which everything is where it
should be. -/
theorem inlineCall_valid {fuel call : Nat} {target : Label} {active : List Label}
    (h : s.inlineCall fuel call target active o = .ok o') (calls : List Call) :
    o.Grows o' ∧ ∀ f, o'.Grows f → ∃ header K,
      K.Replaces s f header calls call target o.lines.length o'.lines.length ∧ Valid s f K := by
  -- By induction on the nesting of calls. What is already written only grows, so a line of a copy
  -- that is found once is found in the end.
  induction fuel generalizing call target active o o' calls with
  | zero => cases h
  | succ fuel ih =>
    obtain ⟨start, slot, body, o₁, hstart, hslot, hbody, hfold, rfl⟩ := Source.inlineCall_inv h
    obtain ⟨hmem, hisBody⟩ := Source.body_isBody hbody
    have hopened := grows_opened (s := s) (o := o) call target slot body
    have hcopy : (s.header o target slot body).copy = o.copies.length := by
      simp [Source.header, Output.copies]
    have hheader : (s.header o target slot body).slot = slot := rfl
    have hother : ∀ l, l ∉ s.placedIn body → renamed (s.header o target slot body).names l = l :=
      fun l hl => Source.renamed_other target slot hl
    generalize s.header o target slot body = header at hfold hopened hcopy hheader hother ⊢
    -- an instruction of the body is copied as it is, or it is a call, whose copy is valid by
    -- induction
    have hcopied : ∀ index ∈ body, ∀ o o', s.copyStep fuel active header o index = .ok o' →
        o.Grows o' ∧ ∀ f, o'.Grows f → header.Puts s (⟨call + 1, slot⟩ :: calls) index
          o.lines.length o'.lines.length f := by
      intro index hindex o o' hstep
      obtain ⟨i, hi⟩ := hisBody.instructions index hindex
      rcases Source.copyStep_cases hi hstep with ⟨l, rfl, hcall⟩ | ⟨hne, hret, rfl⟩
      · obtain ⟨hgrows, hvalid⟩ := ih hcall (⟨call + 1, slot⟩ :: calls)
        refine ⟨hgrows, fun f hf i' hi' => ?_⟩
        obtain rfl := Option.some.inj (hi.symm.trans hi')
        exact ⟨by simp, .inl ⟨l, rfl, hvalid f hf⟩⟩
      · refine ⟨o.grows_emit .., fun f hf i' hi' => ?_⟩
        obtain rfl := Option.some.inj (hi.symm.trans hi')
        refine ⟨hret, .inr ⟨hne, by simp, ?_⟩⟩
        exact hf.getElem? (o.getElem?_emit ..)
    obtain ⟨hgrows, place, hfirst, hlast, hmono, hput⟩ := foldlM_places
      (P := header.Puts s (⟨call + 1, slot⟩ :: calls)) hcopied hfold
    have hemit := o₁.grows_emit (.label header.done) none none
    refine ⟨hopened.trans (hgrows.trans hemit), fun f hf => ?_⟩
    have hput : ∀ index ∈ body, header.Puts s (⟨call + 1, slot⟩ :: calls) index
        (place (body.idxOf index)) (place (body.idxOf index + 1)) f :=
      fun index hindex => hput _ index (List.getElem?_idxOf hindex) f (hemit.trans hf)
    have hvalid : Valid s f (header.scope body place (⟨call + 1, slot⟩ :: calls)) := by
      refine .of_put (fun index hindex => .inl (hisBody.instructions index hindex)) ?_ ?_
        fun index i hindex hi => (hput index hindex i hi).2
      · intro index i hindex hi hfalls
        have hnext := hisBody.next index hindex i hi hfalls
        refine ⟨hnext, ?_⟩
        simp only [Header.scope, idxOf_succ hisBody.increasing hindex hnext]
      · intro index i l j hindex hi hne hl hj
        obtain ⟨j', hmem, hj'⟩ := hisBody.targets index hindex i hi hne l hl
        cases hj.symm.trans hj'
        exact hmem
    refine ⟨header, header.scope body place (⟨call + 1, slot⟩ :: calls), ?_, hvalid⟩
    rw [lines_opened, List.length_append, List.length_singleton] at hfirst
    rw [Output.lines_emit, List.length_append, List.length_singleton]
    have hbefore := (hgrows.trans hemit).trans hf
    refine ⟨rfl, by rw [hheader]; rfl, ?_, ?_, ?_, ?_, ?_, ?_, ?_, ?_⟩
    · refine hbefore.copy ?_
      rw [copies_opened, hcopy]
      exact List.getElem?_concat_length
    · refine fun l hl => hother l fun hmem => ?_
      obtain ⟨index, hindex, hi⟩ := List.mem_filterMap.mp hmem
      obtain ⟨i, hi, hlabel⟩ := Option.bind_eq_some_iff.mp hi
      obtain rfl := Instruction.placed?_eq_some.mp hlabel
      exact hl index hindex hi
    · refine ⟨start, body, hstart, hheader ▸ hslot, hbody, fun _ => Iff.rfl, fun hleast => ?_⟩
      simp only [Header.scope, idxOf_least hisBody.increasing hmem hleast, hfirst]
    · exact fun index slot hindex hret => (hput index hindex _ hret).1 slot rfl
    · intro index hindex
      have hlt : body.idxOf index < body.length := List.idxOf_lt_length_of_mem hindex
      have hlower := hmono 0 (body.idxOf index) (Nat.zero_le _) hlt.le
      have hupper := hmono (body.idxOf index + 1) body.length hlt (Nat.le_refl _)
      have hstep := hmono (body.idxOf index) (body.idxOf index + 1) (Nat.le_succ _) hlt
      simp only [Header.scope]
      omega
    · intro r hr hr'
      obtain ⟨k, hk, hbetween⟩ := exists_between place (n := body.length) (r := r)
        (by omega) (by omega)
      have hidx : body.idxOf body[k] = k := List.Nodup.idxOf_getElem hisBody.nodup k hk
      refine ⟨body[k], List.getElem_mem hk, ?_⟩
      simpa only [Header.scope, hidx] using hbetween
    · refine hbefore.getElem? ?_
      rw [lines_opened]
      exact List.getElem?_concat_length
    · exact ⟨_, rfl, hf.getElem? (o₁.getElem?_emit ..)⟩

/-! ## The whole code -/

namespace Source

/-- Writes one instruction of the code. -/
def writeStep (s : Source) (o : Output) (x : Instruction × Nat) : Except CodeError Output :=
  match x.1 with
  | .jsr target => s.inlineCall (s.positions.length + 1) x.2 target [] o
  | i => .ok (o.emit i (some x.2) none)

/-- Nothing is written yet. -/
def blank (s : Source) : Output where
  emitted := []
  renamings := []
  nextLabel := s.code.nextLabel

/-- Everything was written that there is to write. -/
def Writes (s : Source) (f : Output) : Prop :=
  s.code.instructions.toList.zipIdx.foldlM s.writeStep s.blank = .ok f

/-- An instruction is a call that is copied, or it is emitted as it is. -/
theorem writeStep_cases {i : Instruction} {index : Nat}
    (h : s.writeStep o (i, index) = .ok o') :
    (∃ l, i = .jsr l ∧ s.inlineCall (s.positions.length + 1) index l [] o = .ok o') ∨
    ((∀ l, i ≠ .jsr l) ∧ o' = o.emit i (some index) none) := by
  cases i with
  | jsr l => exact .inl ⟨l, rfl, h⟩
  | _ =>
    cases h
    exact .inr ⟨by simp, rfl⟩

/-- The whole code, with its instructions put one after the other. There is a place after the last
one as well. -/
def whole (s : Source) (place : Nat → Nat) : Scope where
  has index := index ≤ s.code.instructions.size
  place
  stop index := place (index + 1)
  header := none
  calls := []

/-- What is put for each instruction of the code. -/
theorem writeStep_put {i : Instruction} {index : Nat} (h : s.writeStep o (i, index) = .ok o') :
    o.Grows o' ∧ ∀ f, o'.Grows f → Put s none [] index i o.lines.length o'.lines.length f := by
  rcases writeStep_cases h with ⟨l, rfl, hcall⟩ | ⟨hne, rfl⟩
  · obtain ⟨hgrows, hvalid⟩ := inlineCall_valid hcall []
    exact ⟨hgrows, fun f hf => .inl ⟨l, rfl, hvalid f hf⟩⟩
  · refine ⟨o.grows_emit .., fun f hf => .inr ⟨hne, by simp, ?_⟩⟩
    exact hf.getElem? (o.getElem?_emit ..)

/-- **Everything is where it should be.** -/
theorem Writes.valid {f : Output} (h : s.Writes f)
    (hpositions : s.code.labelPositions = .ok s.positions) : ∃ place : Nat → Nat,
      s.code.nextLabel.id ≤ f.nextLabel.id ∧ place 0 = 0 ∧
      place s.code.instructions.size = f.lines.length ∧
      (∀ j k, j ≤ k → k ≤ s.code.instructions.size → place j ≤ place k) ∧
      Valid s f (s.whole place) := by
  obtain ⟨hgrows, place, hfirst, hlast, hmono, hput⟩ := foldlM_places
    (P := fun x p q f => Put s none [] x.2 x.1 p q f) (fun _ _ _ _ => writeStep_put) h
  have hsize : s.code.instructions.toList.zipIdx.length = s.code.instructions.size := by simp
  rw [hsize] at hlast hmono
  have hput : ∀ index i, s.code.instructions[index]? = some i →
      Put s none [] index i (place index) (place (index + 1)) f := by
    intro index i hi
    refine hput index (i, index) ?_ f (.refl f)
    simpa [List.getElem?_zipIdx] using hi
  refine ⟨place, hgrows.nextLabel, hfirst, hlast, hmono, .of_put ?_ ?_ ?_ fun index i _ hi => hput index i hi⟩
  · intro index hindex
    rcases Nat.lt_or_eq_of_le hindex with hlt | rfl
    · exact .inl ⟨_, Array.getElem?_eq_getElem hlt⟩
    · exact .inr ⟨by simp, hlast⟩
  · intro index i _ hi _
    exact ⟨(Array.getElem?_eq_some_iff.mp hi).1, rfl⟩
  · intro index i l j _ _ _ _ hj
    exact (Array.getElem?_eq_some_iff.mp ((Code.find_iff hpositions).mp hj)).1.le

end Source

end Resumption.Subroutine
