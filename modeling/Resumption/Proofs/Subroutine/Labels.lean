import Resumption.Proofs.Subroutine.Copies

/-!
# Labels of the output

Every label is placed once. Those of the code keep their names outside of copies, and the ones of a
copy are in use nowhere else: each step takes its fresh labels from a range of its own
(`Places.trans`). Every name in a copy is placed there (`inlineCall_names`).
-/

namespace Resumption.Subroutine

/-- The labels that are placed, in order. -/
def Output.placed (o : Output) : List Label := o.lines.filterMap (·.instruction.placed?)

/-- Places labels, each of them once: some that are given, and fresh ones. -/
structure Places (given : List Label) (o o' : Output) : Prop where
  /-- labels are given or fresh, and placed once -/
  placed : ∃ new : List Label, o'.placed = o.placed ++ new ∧ new.Nodup ∧
    ∀ l ∈ new, l ∈ given ∨ o.nextLabel.id ≤ l.id ∧ l.id < o'.nextLabel.id
  /-- labels that are used stay used -/
  nextLabel : o.nextLabel.id ≤ o'.nextLabel.id

/-- Labels that cannot be mistaken for fresh ones. -/
def Known (given : List Label) (o : Output) : Prop := ∀ l ∈ given, l.id < o.nextLabel.id

variable {s : Source} {o o₁ o' : Output} {given given' : List Label}

@[simp]
theorem placed_emit (o : Output) (i : Instruction) (origin copy : Option Nat) :
    (o.emit i origin copy).placed = o.placed ++ i.placed?.toList := by
  cases h : i.placed? <;> simp [Output.placed, h]

namespace Places

theorem refl (o : Output) : Places [] o o := ⟨⟨[], by simp, by simp, by simp⟩, Nat.le_refl _⟩

theorem emit (o : Output) (i : Instruction) (origin copy : Option Nat) :
    Places i.placed?.toList o (o.emit i origin copy) := by
  refine ⟨⟨i.placed?.toList, placed_emit .., ?_, fun l hl => .inl hl⟩, Nat.le_refl _⟩
  cases i.placed? <;> simp

/-- The fresh labels of two steps come from different ranges. -/
theorem trans (h : Places given o o₁) (h' : Places given' o₁ o') (hdisjoint : given.Disjoint given')
    (hknown : Known given o) (hknown' : Known given' o) : Places (given ++ given') o o' := by
  obtain ⟨⟨new, hplaced, hnodup, hnew⟩, hle⟩ := h
  obtain ⟨⟨new', hplaced', hnodup', hnew'⟩, hle'⟩ := h'
  refine ⟨⟨new ++ new', by rw [hplaced', hplaced, List.append_assoc], ?_, ?_⟩, hle.trans hle'⟩
  · refine List.nodup_append'.mpr ⟨hnodup, hnodup', fun l hl hl' => ?_⟩
    rcases hnew l hl with hgiven | hfresh
    · rcases hnew' l hl' with hgiven' | hfresh'
      · exact hdisjoint hgiven hgiven'
      · have := hknown l hgiven
        omega
    · rcases hnew' l hl' with hgiven' | hfresh'
      · have := hknown' l hgiven'
        omega
      · omega
  · intro l hl
    rcases List.mem_append.mp hl with hl | hl
    · rcases hnew l hl with hgiven | hfresh
      · exact .inl (List.mem_append_left _ hgiven)
      · exact .inr (by omega)
    · rcases hnew' l hl with hgiven | hfresh
      · exact .inl (List.mem_append_right _ hgiven)
      · exact .inr (by omega)

theorem foldlM {α : Type} {step : Output → α → Except CodeError Output} {given : α → List Label}
    {xs : List α} (hstep : ∀ x ∈ xs, ∀ o o', step o x = .ok o' → Places (given x) o o')
    (hdisjoint : xs.Pairwise fun x y => (given x).Disjoint (given y))
    (hknown : ∀ x ∈ xs, Known (given x) o) (h : xs.foldlM step o = .ok o') :
    Places (xs.flatMap given) o o' := by
  induction xs generalizing o with
  | nil =>
    cases h
    exact refl _
  | cons x xs ih =>
    obtain ⟨hfirst, hrest⟩ := List.pairwise_cons.mp hdisjoint
    rw [List.foldlM_cons] at h
    obtain ⟨o₁, hx, h⟩ := Except.bind_ok.mp h
    have hplaces := hstep x (List.mem_cons_self ..) o o₁ hx
    have hknown' : ∀ y ∈ xs, Known (given y) o := fun y hy => hknown y (List.mem_cons_of_mem _ hy)
    have hplaces' := ih (fun y hy => hstep y (List.mem_cons_of_mem _ hy)) hrest
      (fun y hy l hl => (hknown' y hy l hl).trans_le hplaces.nextLabel) h
    rw [List.flatMap_cons]
    refine hplaces.trans hplaces' ?_ (hknown x (List.mem_cons_self ..)) ?_
    · intro l hl hl'
      obtain ⟨y, hy, hl'⟩ := List.mem_flatMap.mp hl'
      exact hfirst y hy hl hl'
    · intro l hl
      obtain ⟨y, hy, hl⟩ := List.mem_flatMap.mp hl
      exact hknown' y hy l hl

end Places

/-! ## Names in copies -/

/-- A label has the name at its place in the list. -/
theorem lookup_zipIdx (labels : List Label) (f : Nat → Label) {l : Label} (hl : l ∈ labels) (n : Nat) :
    ((labels.zipIdx n).map fun x => (x.1, f x.2)).lookup l = some (f (n + labels.idxOf l)) := by
  induction labels generalizing n with
  | nil => cases hl
  | cons k labels ih =>
    rw [List.zipIdx_cons, List.map_cons, List.lookup_cons]
    by_cases hk : l = k
    · subst hk
      simp
    · have hmem : l ∈ labels := (List.mem_cons.mp hl).resolve_left hk
      rw [beq_false_of_ne hk, ih hmem, List.idxOf_cons_ne _ fun h => hk h.symm]
      simp only [Option.some.injEq]
      congr 1
      omega

/-- The name that a label of the body has in the copy. -/
theorem renamed_header (target : Label) (slot : Nat) {body : List Nat} {l : Label}
    (hl : l ∈ s.placedIn body) : renamed (s.header o target slot body).names l =
      ⟨o.nextLabel.id + (s.placedIn body).idxOf l⟩ := by
  rw [renamed, Source.header, lookup_zipIdx _ (fun k => ⟨o.nextLabel.id + k⟩) hl, Nat.zero_add]
  rfl

/-- The label that is placed for an instruction of the code. -/
def labelAt (s : Source) (f : Label → Label) (index : Nat) : List Label :=
  (((s.code.instructions[index]?).bind Instruction.placed?).map f).toList

theorem mem_labelAt {f : Label → Label} {index : Nat} {l : Label} :
    l ∈ labelAt s f index ↔ ∃ k, s.code.instructions[index]? = some (.label k) ∧ f k = l := by
  simp only [labelAt, Option.mem_toList, Option.map_eq_some_iff, Option.bind_eq_some_iff,
    Instruction.placed?_eq_some]
  grind

theorem placed?_mapLabels (f : Label → Label) (i : Instruction) :
    (i.mapLabels f).placed? = i.placed?.map f := by
  cases i <;> rfl

theorem placed?_rewrite (header : Header) (i : Instruction) :
    (header.rewrite i).placed? = i.placed?.map (renamed header.names) := by
  cases i <;> rfl

/-- Two instructions place different labels. -/
theorem labelAt_disjoint (hpositions : s.code.labelPositions = .ok s.positions) {f : Label → Label}
    {indexes : List Nat} (hnodup : indexes.Nodup)
    (hf : ∀ k ∈ s.placedIn indexes, ∀ k' ∈ s.placedIn indexes, f k = f k' → k = k') :
    indexes.Pairwise fun x y => (labelAt s f x).Disjoint (labelAt s f y) := by
  have hmem : ∀ {index k}, index ∈ indexes → s.code.instructions[index]? = some (.label k) →
      k ∈ s.placedIn indexes := by
    intro index k hindex hk
    exact List.mem_filterMap.mpr ⟨index, hindex, by simp [hk, Instruction.placed?]⟩
  refine hnodup.imp_of_mem fun {x y} hx hy hne l hl hl' => hne ?_
  obtain ⟨k, hk, rfl⟩ := mem_labelAt.mp hl
  obtain ⟨k', hk', heq⟩ := mem_labelAt.mp hl'
  obtain rfl := hf _ (hmem hy hk') _ (hmem hx hk) heq
  -- a label has one position
  have hpos := ((Code.find_iff hpositions).mpr hk).symm.trans ((Code.find_iff hpositions).mpr hk')
  exact Except.ok.inj hpos

/-- **The labels of a copy** are all fresh. -/
theorem inlineCall_places (hpositions : s.code.labelPositions = .ok s.positions) {fuel call : Nat}
    {target : Label} {active : List Label} (h : s.inlineCall fuel call target active o = .ok o') :
    Places [] o o' := by
  induction fuel generalizing call target active o o' with
  | zero => cases h
  | succ fuel ih =>
    obtain ⟨start, slot, body, o₁, -, -, hbody, hfold, rfl⟩ := Source.inlineCall_inv h
    obtain ⟨-, hisBody⟩ := Source.body_isBody hbody
    have hname : ∀ l ∈ s.placedIn body, renamed (s.header o target slot body).names l =
      ⟨o.nextLabel.id + (s.placedIn body).idxOf l⟩ := fun l hl => renamed_header target slot hl
    have hdone : (s.header o target slot body).done.id =
      o.nextLabel.id + (s.placedIn body).length := rfl
    generalize s.header o target slot body = header at hfold hname hdone ⊢
    -- the names of a copy are below the label at its end, and the labels of inner copies above it
    have hgiven : ∀ index ∈ body, ∀ l ∈ labelAt s (renamed header.names) index,
        o.nextLabel.id ≤ l.id ∧ l.id < header.done.id := by
      intro index hindex l hl
      obtain ⟨k, hk, rfl⟩ := mem_labelAt.mp hl
      have hmem : k ∈ s.placedIn body :=
        List.mem_filterMap.mpr ⟨index, hindex, by simp [hk, Instruction.placed?]⟩
      have hlt := List.idxOf_lt_length_of_mem hmem
      rw [hname k hmem, hdone]
      constructor
      · exact Nat.le_add_right ..
      · exact Nat.add_lt_add_left hlt _
    have hplaces : Places (body.flatMap (labelAt s (renamed header.names)))
        (Source.opened o call header) o₁ := by
      refine .foldlM (fun index hindex o o' hstep => ?_) (labelAt_disjoint hpositions hisBody.nodup ?_)
        (fun index hindex l hl => (hgiven index hindex l hl).2.trans (Nat.lt_succ_self _)) hfold
      · obtain ⟨i, hi⟩ := hisBody.instructions index hindex
        rcases Source.copyStep_cases hi hstep with ⟨l, rfl, hcall⟩ | ⟨-, -, rfl⟩
        · simpa [labelAt, hi, Instruction.placed?] using ih hcall
        · simpa [labelAt, hi, placed?_rewrite] using
            Places.emit o (header.rewrite i) (some index) (some header.copy)
      · intro k hk k' hk' heq
        rw [hname k hk, hname k' hk', Label.mk.injEq] at heq
        exact (List.idxOf_inj hk).mp (by omega)
    have hopened : (Source.opened o call header).placed = o.placed := by
      simp [Output.placed, lines_opened, Instruction.placed?]
    have hnext : (Source.opened o call header).nextLabel.id = header.done.id + 1 := rfl
    obtain ⟨⟨new, hplaced, hnodup, hnew⟩, hle⟩ := hplaces
    have hrange : ∀ l ∈ new, o.nextLabel.id ≤ l.id ∧ l.id < o₁.nextLabel.id ∧
        l.id ≠ header.done.id := by
      intro l hl
      rcases hnew l hl with hl | hl
      · obtain ⟨index, hindex, hl⟩ := List.mem_flatMap.mp hl
        have := hgiven index hindex l hl
        omega
      · omega
    refine ⟨⟨new ++ [header.done], ?_, ?_, ?_⟩, ?_⟩
    · simp [hplaced, hopened, Instruction.placed?]
    · refine List.nodup_append'.mpr ⟨hnodup, List.nodup_singleton _, fun l hl hl' => ?_⟩
      cases List.mem_singleton.mp hl'
      exact (hrange _ hl).2.2 rfl
    · intro l hl
      rw [Output.nextLabel_emit]
      rcases List.mem_append.mp hl with hl | hl
      · exact .inr ⟨(hrange l hl).1, (hrange l hl).2.1⟩
      · cases List.mem_singleton.mp hl
        exact .inr (by omega)
    · rw [Output.nextLabel_emit]
      omega

/-- No label of the code is above its next label. -/
def Bounded (c : Code) : Prop :=
  ∀ i ∈ c.instructions.toList, ∀ l ∈ Code.labelsOf i, l.id < c.nextLabel.id

instance (c : Code) : Decidable (Bounded c) :=
  inferInstanceAs (Decidable (∀ i ∈ c.instructions.toList, ∀ l ∈ Code.labelsOf i,
    l.id < c.nextLabel.id))

/-- **Labels of the output.** Each is placed once, and it is fresh unless it is a label of the
code. -/
theorem Source.Writes.placed {f : Output} (h : s.Writes f)
    (hpositions : s.code.labelPositions = .ok s.positions) (hbounded : Bounded s.code) :
    f.placed.Nodup ∧ ∀ l ∈ f.placed,
      (∃ index : Nat, s.code.instructions[index]? = some (.label l)) ∨
        s.code.nextLabel.id ≤ l.id ∧ l.id < f.nextLabel.id := by
  have hplaces : Places (s.code.instructions.toList.zipIdx.flatMap fun x => labelAt s id x.2)
      s.blank f := by
    refine .foldlM ?_ ?_ ?_ h
    · rintro ⟨i, index⟩ hx o o' hstep
      have hi : s.code.instructions[index]? = some i := by
        simpa using List.mem_zipIdx_iff_getElem?.mp hx
      rcases Source.writeStep_cases hstep with ⟨l, rfl, hcall⟩ | ⟨-, rfl⟩
      · simpa [labelAt, hi, Instruction.placed?] using inlineCall_places hpositions hcall
      · simpa [labelAt, hi] using Places.emit o i (some index) none
    · have hnodup : (s.code.instructions.toList.zipIdx.map Prod.snd).Nodup := by
        rw [List.zipIdx_map_snd]
        exact List.nodup_range'
      have hdisjoint := labelAt_disjoint hpositions (f := id) hnodup fun _ _ _ _ h => h
      rwa [List.pairwise_map] at hdisjoint
    · rintro ⟨i, index⟩ - l hl
      obtain ⟨k, hk, rfl⟩ := mem_labelAt.mp hl
      exact hbounded _ (Array.mem_toList_iff.mpr (Array.mem_of_getElem? hk)) k
        (by simp [Code.labelsOf, Instruction.placed?])
  obtain ⟨⟨new, hplaced, hnodup, hnew⟩, -⟩ := hplaces
  have hplaced : f.placed = new := hplaced
  rw [hplaced]
  refine ⟨hnodup, fun l hl => ?_⟩
  rcases hnew l hl with hl | hl
  · obtain ⟨x, -, hl⟩ := List.mem_flatMap.mp hl
    obtain ⟨k, hk, rfl⟩ := mem_labelAt.mp hl
    exact .inl ⟨x.2, hk⟩
  · exact .inr hl

/-! ## Names are placed -/

/-- Every name in the new copies is placed. -/
structure Names (o o' : Output) : Prop where
  /-- lines are only added -/
  grows : o.Grows o'
  /-- new names are placed -/
  copies : ∀ names ∈ o'.copies, names ∈ o.copies ∨
    ∀ l, renamed names l = l ∨ renamed names l ∈ o'.placed

theorem Output.Grows.mem_placed (h : o.Grows o') {l : Label} (hl : l ∈ o.placed) : l ∈ o'.placed :=
  (h.lines.sublist.filterMap _).subset hl

namespace Names

theorem refl (o : Output) : Names o o := ⟨.refl o, fun _ hnames => .inl hnames⟩

theorem trans (h : Names o o₁) (h' : Names o₁ o') : Names o o' := by
  refine ⟨h.grows.trans h'.grows, fun names hnames => ?_⟩
  rcases h'.copies names hnames with hnames | hplaced
  · exact (h.copies names hnames).imp_right fun hplaced l =>
      (hplaced l).imp_right h'.grows.mem_placed
  · exact .inr hplaced

theorem emit (o : Output) (i : Instruction) (origin copy : Option Nat) :
    Names o (o.emit i origin copy) :=
  ⟨o.grows_emit .., fun _ hnames => .inl hnames⟩

end Names

/-- The labels of the body are placed in the copy, under their names. -/
theorem copied_placed {fuel : Nat} {active : List Label} {header : Header} {body : List Nat}
    (hgrows : ∀ index ∈ body, ∀ o o', s.copyStep fuel active header o index = .ok o' → o.Grows o')
    (h : body.foldlM (s.copyStep fuel active header) o = .ok o') {l : Label}
    (hl : l ∈ s.placedIn body) : renamed header.names l ∈ o'.placed := by
  obtain ⟨index, hindex, hi⟩ := List.mem_filterMap.mp hl
  obtain ⟨i, hi, hlabel⟩ := Option.bind_eq_some_iff.mp hi
  obtain rfl := Instruction.placed?_eq_some.mp hlabel
  have hput : ∀ j ∈ body, ∀ o o', s.copyStep fuel active header o j = .ok o' → o.Grows o' ∧
      ∀ f, o'.Grows f → j = index → renamed header.names l ∈ f.placed := by
    intro j hj o o' hstep
    refine ⟨hgrows j hj o o' hstep, fun f hf heq => hf.mem_placed ?_⟩
    subst heq
    rcases Source.copyStep_cases hi hstep with ⟨l', hl', -⟩ | ⟨-, -, rfl⟩
    · cases hl'
    · simp [Header.rewrite, Instruction.mapLabels, Instruction.placed?]
  obtain ⟨-, place, -, -, -, hitems⟩ := foldlM_places
    (P := fun j _ _ f => j = index → renamed header.names l ∈ f.placed) hput h
  obtain ⟨k, hk⟩ := List.mem_iff_getElem?.mp hindex
  exact hitems k index hk o' (.refl o') rfl

/-- **Names of a copy.** Labels of the body are placed under them. -/
theorem inlineCall_names {fuel call : Nat} {target : Label} {active : List Label}
    (h : s.inlineCall fuel call target active o = .ok o') : Names o o' := by
  -- by induction on the nesting of calls: every label that a copy renames is placed in the output
  induction fuel generalizing call target active o o' with
  | zero => cases h
  | succ fuel ih =>
    obtain ⟨start, slot, body, o₁, -, -, hbody, hfold, rfl⟩ := Source.inlineCall_inv h
    obtain ⟨-, hisBody⟩ := Source.body_isBody hbody
    have hopened := grows_opened (s := s) (o := o) call target slot body
    have hother : ∀ l, l ∉ s.placedIn body → renamed (s.header o target slot body).names l = l :=
      fun l hl => Source.renamed_other target slot hl
    generalize s.header o target slot body = header at hfold hopened hother ⊢
    have hstep : ∀ index ∈ body, ∀ o o', s.copyStep fuel active header o index = .ok o' →
        Names o o' := by
      intro index hindex o o' hstep
      obtain ⟨i, hi⟩ := hisBody.instructions index hindex
      rcases Source.copyStep_cases hi hstep with ⟨l, rfl, hcall⟩ | ⟨-, -, rfl⟩
      · exact ih hcall
      · exact .emit ..
    have hfolded : Names (Source.opened o call header) o₁ := foldlM_keeps
      (fun index hindex _ _ hnames h => hnames.trans (hstep index hindex _ _ h)) (.refl _) hfold
    have hnames := hfolded.trans (.emit o₁ (.label header.done) none none)
    refine ⟨hopened.trans hnames.grows, fun names hmem => ?_⟩
    rcases hnames.copies names hmem with hmem | hplaced
    · rw [copies_opened] at hmem
      rcases List.mem_append.mp hmem with hmem | hmem
      · exact .inl hmem
      · cases List.mem_singleton.mp hmem
        refine .inr fun l => ?_
        by_cases hl : l ∈ s.placedIn body
        · have hgrows : ∀ index ∈ body, ∀ o o', s.copyStep fuel active header o index = .ok o' →
              o.Grows o' := fun index hindex o o' h => (hstep index hindex o o' h).grows
          have hplaced := copied_placed hgrows hfold hl
          exact .inr ((o₁.grows_emit ..).mem_placed hplaced)
        · exact .inl (hother l hl)
    · exact .inr hplaced

/-- Names of copies are placed. -/
theorem Source.Writes.names {f : Output} (h : s.Writes f) {k : Nat} (l : Label) :
    renamed (f.copies.getD k []) l = l ∨ renamed (f.copies.getD k []) l ∈ f.placed := by
  have hnames : Names s.blank f := by
    refine foldlM_keeps (fun x _ o o' hnames hstep => hnames.trans ?_) (.refl _) h
    rcases Source.writeStep_cases hstep with ⟨l, -, hcall⟩ | ⟨-, rfl⟩
    · exact inlineCall_names hcall
    · exact .emit ..
  by_cases hk : k < f.copies.length
  · rw [List.getD_eq_getElem _ _ hk]
    rcases hnames.copies _ (List.getElem_mem hk) with hmem | hplaced
    · cases hmem
    · exact hplaced l
  · rw [List.getD_eq_default _ _ (Nat.le_of_not_lt hk)]
    exact .inl rfl

end Resumption.Subroutine
