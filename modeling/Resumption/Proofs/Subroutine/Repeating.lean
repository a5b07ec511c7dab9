import Resumption.Proofs.Subroutine.Standing

/-!
# Handlers repeated for copies

A handler is repeated for every stretch of lines of one copy that it covers. So what covers a line of
a copy is exactly one of the repeated handlers, or none (`stretches_at`), and each has labels of its
own (`repeated_spec`).
-/

namespace Resumption.Subroutine

/-- Is the line in the stretch? -/
def Stretch.has (stretch : Stretch) (p : Nat) : Bool := stretch.start ≤ p && p < stretch.stop

/-- The copies of the stretches that have a line. -/
def copiesAt (p : Nat) (stretches : List Stretch) : List Nat :=
  (stretches.filter (·.has p)).map (·.copy)

@[simp]
theorem copiesAt_nil (p : Nat) : copiesAt p [] = [] := rfl

@[simp]
theorem copiesAt_cons (p : Nat) (stretch : Stretch) (rest : List Stretch) :
    copiesAt p (stretch :: rest) =
      (if stretch.has p then [stretch.copy] else []) ++ copiesAt p rest := by
  by_cases h : stretch.has p <;> simp [copiesAt, h]

/-- The copies of the stretches that have a line, when one stretch may be open already. -/
theorem copiesAt_stretches (range : HandlerRange) (lines : List Emitted) {position : Nat}
    {current : Option (Nat × Nat)} (hopen : ∀ x ∈ current, x.1 ≤ position) (p : Nat) :
    copiesAt p (stretches range position current lines) =
      if p < position then (current.toList.filter (·.1 ≤ p)).map (·.2)
      else ((lines[p - position]?).bind (coveredCopy? range)).toList := by
  -- a line is before the place, or at it, or further on in the rest
  have hplace : ∀ position, p < position ∧ p < position + 1 ∨ p = position ∨
      ¬ p < position ∧ ¬ p < position + 1 ∧ p - position = p - (position + 1) + 1 := by omega
  fun_induction stretches range position current lines with
  | case1 position start copy =>
    by_cases hp : p < position <;> by_cases hstart : start ≤ p <;>
      simp [Stretch.has, hp, hstart]
  | case2 position => simp
  | case3 position e rest here hnone ih =>
    have hhere : coveredCopy? range e = none := hnone
    rw [ih (by simp)]
    rcases hplace position with ⟨hp, hp'⟩ | rfl | ⟨hp, hp', hsub⟩
    · simp only [hp, hp', if_true]
    · simp [hhere]
    · simp [hp, hp', hsub]
  | case4 position e rest here copy hsome ih =>
    have hhere : coveredCopy? range e = some copy := hsome
    rw [ih (by simp)]
    rcases hplace position with ⟨hp, hp'⟩ | rfl | ⟨hp, hp', hsub⟩
    · simp [hp, hp']
    · simp [hhere]
    · simp [hp, hp', hsub]
  | case5 position e rest here start copy hnone ih =>
    have hhere : coveredCopy? range e = none := hnone
    rw [copiesAt_cons, ih (by simp)]
    rcases hplace position with ⟨hp, hp'⟩ | rfl | ⟨hp, hp', hsub⟩
    · by_cases hstart : start ≤ p <;> simp [Stretch.has, hp, hp', hstart]
    · simp [Stretch.has, hhere]
    · simp [Stretch.has, hp, hp', hsub]
  | case6 position e rest here start copy hsome ih =>
    have hhere : coveredCopy? range e = some copy := hsome
    have hstart : start ≤ position := hopen _ rfl
    rw [ih (by simp; omega)]
    rcases hplace position with ⟨hp, hp'⟩ | rfl | ⟨hp, hp', hsub⟩
    · simp only [hp, hp', if_true]
    · simp [hhere, hstart]
    · simp [hp, hp', hsub]
  | case7 position e rest here start copy other hsome hne ih =>
    have hhere : coveredCopy? range e = some other := hsome
    rw [copiesAt_cons, ih (by simp)]
    rcases hplace position with ⟨hp, hp'⟩ | rfl | ⟨hp, hp', hsub⟩
    · by_cases hstart : start ≤ p <;> simp [Stretch.has, hp, hp', hstart]
    · simp [Stretch.has, hhere]
    · simp [Stretch.has, hp, hp', hsub]

/-- Stretches have lines, and all of them are there. -/
theorem stretches_bounded (range : HandlerRange) (lines : List Emitted) {position : Nat}
    {current : Option (Nat × Nat)} (hopen : ∀ x ∈ current, x.1 < position) :
    ∀ stretch ∈ stretches range position current lines,
      stretch.start < stretch.stop ∧ stretch.stop ≤ position + lines.length := by
  fun_induction stretches range position current lines with
  | case1 position start copy => simpa using hopen _ rfl
  | case2 position => simp
  | case3 position e rest here hnone ih => grind
  | case4 position e rest here copy hsome ih => grind
  | case5 position e rest here start copy hnone ih =>
    have hstart : start < position := hopen _ rfl
    grind
  | case6 position e rest here start copy hsome ih =>
    have hstart : start < position := hopen _ rfl
    grind
  | case7 position e rest here start copy other hsome hne ih =>
    have hstart : start < position := hopen _ rfl
    grind

/-! ## Handlers and their labels -/

/-- The handler as it is repeated for a stretch: what is caught is the same, the entry is the one in the
copy, and the labels are put around the stretch. -/
structure Repeats (o : Output) (labels : List (Nat × Label)) (handler : Handler) (stretch : Stretch)
    (handler' : Handler) : Prop where
  /-- it catches the same -/
  caught : handler'.caught = handler.caught
  /-- it begins in the copy, if the handler is copied -/
  entry : handler'.entry = renamed (o.copies.getD stretch.copy []) handler.entry
  /-- it comes into force where the stretch begins -/
  start : (stretch.start, handler'.start) ∈ labels
  /-- and is in force up to its end -/
  stop : (stretch.stop, handler'.stop) ∈ labels

theorem Repeats.mono {o : Output} {labels labels' : List (Nat × Label)} {handler handler' : Handler}
    {stretch : Stretch} (h : Repeats o labels handler stretch handler')
    (hsub : ∀ x ∈ labels, x ∈ labels') : Repeats o labels' handler stretch handler' :=
  ⟨h.caught, h.entry, hsub _ h.start, hsub _ h.stop⟩

/-- Handlers and labels are added, and the labels are taken one after the other. -/
structure Extends (r r' : Repeated) (handlers : List Handler) (labels : List (Nat × Label)) :
    Prop where
  /-- these handlers are added -/
  handlers_eq : r'.handlers = r.handlers ++ handlers
  /-- and these labels -/
  labels_eq : r'.labels = r.labels ++ labels
  /-- which are fresh -/
  fresh : labels.map (·.2) = (List.range' r.nextLabel.id labels.length).map Label.mk
  /-- and used from now on -/
  nextLabel : r'.nextLabel.id = r.nextLabel.id + labels.length

theorem Extends.trans {r r₁ r' : Repeated} {handlers handlers' : List Handler}
    {labels labels' : List (Nat × Label)} (h : Extends r r₁ handlers labels)
    (h' : Extends r₁ r' handlers' labels') :
    Extends r r' (handlers ++ handlers') (labels ++ labels') where
  handlers_eq := by rw [h'.handlers_eq, h.handlers_eq, List.append_assoc]
  labels_eq := by rw [h'.labels_eq, h.labels_eq, List.append_assoc]
  fresh := by
    rw [List.map_append, h.fresh, h'.fresh, h.nextLabel, List.length_append, ← List.map_append,
      List.range'_append_1]
  nextLabel := by rw [h'.nextLabel, h.nextLabel, List.length_append, Nat.add_assoc]

/-- A handler is followed by those that repeat it. -/
theorem repeatHandler_spec (o : Output) (handler : Handler) (range : HandlerRange) (r : Repeated) :
    ∃ extra labels, Extends r (repeatHandler o handler range r) (handler :: extra) labels ∧
      List.Forall₂ (Repeats o labels handler) (stretches range 0 none o.lines) extra := by
  have hfold : ∀ (pieces : List Stretch) (r : Repeated), ∃ extra labels,
      Extends r (pieces.foldl (fun r stretch =>
        { handlers := r.handlers ++ [{ handler with
            start := r.nextLabel
            stop := r.nextLabel.next
            entry := renamed (o.copies.getD stretch.copy []) handler.entry }]
          labels := r.labels ++ [(stretch.start, r.nextLabel), (stretch.stop, r.nextLabel.next)]
          nextLabel := r.nextLabel.next.next }) r) extra labels ∧
        List.Forall₂ (Repeats o labels handler) pieces extra := by
    intro pieces
    -- each piece gets two labels of its own and a handler between them
    induction pieces with
    | nil => exact fun r => ⟨[], [], ⟨by simp, by simp, by simp, by simp⟩, .nil⟩
    | cons stretch pieces ih =>
      intro r
      obtain ⟨extra, labels, hextends, hrepeats⟩ := ih
        { handlers := r.handlers ++ [{ handler with
            start := r.nextLabel
            stop := r.nextLabel.next
            entry := renamed (o.copies.getD stretch.copy []) handler.entry }]
          labels := r.labels ++ [(stretch.start, r.nextLabel), (stretch.stop, r.nextLabel.next)]
          nextLabel := r.nextLabel.next.next }
      refine ⟨_, _, .trans ⟨rfl, rfl, rfl, rfl⟩ hextends, .cons ?_ ?_⟩
      · exact ⟨rfl, rfl, List.mem_append_left _ (by simp), List.mem_append_left _ (by simp)⟩
      · exact hrepeats.imp fun _ _ h => h.mono fun _ hx => List.mem_append_right _ hx
  obtain ⟨extra, labels, hextends, hrepeats⟩ := hfold (stretches range 0 none o.lines)
    { r with handlers := r.handlers ++ [handler] }
  have hfirst : Extends r { r with handlers := r.handlers ++ [handler] } [handler] [] :=
    ⟨rfl, by simp, rfl, rfl⟩
  exact ⟨extra, labels, hfirst.trans hextends, hrepeats⟩

/-- **Repeated handlers.** Every handler is followed by those that repeat it. -/
theorem repeatAll_spec (o : Output) (pairs : List (Handler × HandlerRange)) (r : Repeated) :
    ∃ extras labels, Extends r
        (pairs.foldl (fun r x => repeatHandler o x.1 x.2 r) r)
        ((pairs.zip extras).flatMap fun x => x.1.1 :: x.2) labels ∧
      List.Forall₂ (fun x extra => List.Forall₂ (Repeats o labels x.1)
        (stretches x.2 0 none o.lines) extra) pairs extras := by
  induction pairs generalizing r with
  | nil => exact ⟨[], [], ⟨by simp, by simp, by simp, by simp⟩, .nil⟩
  | cons x pairs ih =>
    obtain ⟨extra, labels, hextends, hrepeats⟩ := repeatHandler_spec o x.1 x.2 r
    obtain ⟨extras, labels', hextends', hrepeats'⟩ := ih (repeatHandler o x.1 x.2 r)
    refine ⟨extra :: extras, labels ++ labels', hextends.trans hextends', .cons ?_ ?_⟩
    · exact hrepeats.imp fun _ _ h => h.mono fun _ hx => List.mem_append_left _ hx
    · exact hrepeats'.imp fun _ _ h => h.imp fun _ _ h => h.mono fun _ hx =>
        List.mem_append_right _ hx

end Resumption.Subroutine
