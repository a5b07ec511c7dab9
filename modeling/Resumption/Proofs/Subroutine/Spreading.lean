import Resumption.Proofs.Subroutine.Labels

/-!
# Labels put in between

The handlers of copies need labels of their own, which are put in front of lines that were written
before. A line is then found further on (`spot`), behind the labels that are for it, and these begin
right after the line before (`block`).
-/

namespace Resumption.Subroutine

variable {labels : List (Nat × Label)} {lines : List Emitted}

/-- The labels in front of a line. -/
def marksAt (labels : List (Nat × Label)) (p : Nat) : List Emitted :=
  (labels.filter (·.1 == p)).map fun x => ⟨.label x.2, none, none⟩

/-- The lines with the labels in between. -/
def spread (labels : List (Nat × Label)) (lines : List Emitted) : List Emitted :=
  lines.zipIdx.flatMap (fun x => marksAt labels x.2 ++ [x.1]) ++ marksAt labels lines.length

/-- Where the labels in front of a line begin. -/
def block (labels : List (Nat × Label)) : Nat → Nat
  | 0 => 0
  | p + 1 => block labels p + (marksAt labels p).length + 1

/-- Where a line is found. -/
def spot (labels : List (Nat × Label)) (p : Nat) : Nat := block labels p + (marksAt labels p).length

theorem block_succ (labels : List (Nat × Label)) (p : Nat) :
    block labels (p + 1) = spot labels p + 1 := rfl

theorem block_le_spot (labels : List (Nat × Label)) (p : Nat) : block labels p ≤ spot labels p :=
  Nat.le_add_right ..

theorem block_strictMono (labels : List (Nat × Label)) : StrictMono (block labels) :=
  strictMono_nat_of_lt_succ fun p => Nat.lt_succ_of_le (block_le_spot labels p)

theorem spot_strictMono (labels : List (Nat × Label)) : StrictMono (spot labels) :=
  strictMono_nat_of_lt_succ fun p => block_le_spot labels (p + 1)

theorem placeBefore_eq (labels : List (Nat × Label)) (lines : List Emitted) :
    placeBefore labels (lines.map (·.instruction)) = (spread labels lines).map (·.instruction) := by
  simp only [placeBefore, spread, marksAt, List.zipIdx_map, List.flatMap_map, List.map_append,
    List.map_flatMap, List.map_map, List.length_map]
  rfl

theorem length_spread (labels : List (Nat × Label)) (lines : List Emitted) :
    (lines.zipIdx.flatMap fun x => marksAt labels x.2 ++ [x.1]).length = block labels lines.length := by
  induction lines using List.reverseRecOn with
  | nil => rfl
  | append_singleton lines e ih =>
    rw [List.zipIdx_append, List.flatMap_append, List.length_append, ih]
    simp [block, Nat.add_assoc]

/-- The lines before a line, the labels in front of it, and the rest. -/
theorem spread_split (labels : List (Nat × Label)) {p : Nat} (hp : p ≤ lines.length) :
    ∃ before rest, spread labels lines = before ++ (marksAt labels p ++ rest) ∧
      before.length = block labels p ∧ rest[0]? = lines[p]? := by
  have hlength : (lines.take p).length = p := List.length_take_of_le hp
  refine ⟨(lines.take p).zipIdx.flatMap fun x => marksAt labels x.2 ++ [x.1], ?_⟩
  cases hrest : lines.drop p with
  | nil =>
    obtain rfl : p = lines.length := Nat.le_antisymm hp (List.drop_eq_nil_iff.mp hrest)
    refine ⟨[], ?_, by rw [length_spread, hlength], by simp⟩
    rw [List.take_length, List.append_nil, spread]
  | cons e rest =>
    have hsplit : lines = lines.take p ++ e :: rest := by rw [← hrest, List.take_append_drop]
    have he : lines[p]? = some e := by
      have hdrop : (lines.drop p)[0]? = lines[p + 0]? := List.getElem?_drop
      rw [hrest] at hdrop
      exact hdrop.symm
    refine ⟨e :: ((rest.zipIdx (p + 1)).flatMap fun x => marksAt labels x.2 ++ [x.1]) ++
      marksAt labels lines.length, ?_, by rw [length_spread, hlength], by simp [he]⟩
    rw [spread]
    nth_rewrite 1 [hsplit]
    rw [List.zipIdx_append, hlength, List.flatMap_append, List.zipIdx_cons, List.flatMap_cons]
    simp only [List.append_assoc, List.cons_append, List.nil_append, Nat.zero_add]

/-- A line is found at its spot. -/
theorem spread_spot (labels : List (Nat × Label)) {p : Nat} (hp : p ≤ lines.length) :
    (spread labels lines)[spot labels p]? = lines[p]? := by
  obtain ⟨before, rest, hsplit, hlength, hrest⟩ := spread_split labels hp
  rw [hsplit, ← List.append_assoc, List.getElem?_append_right]
  · rw [← hrest, List.length_append, hlength, spot, Nat.sub_self]
  · rw [List.length_append, hlength, spot]

/-- In front of a line there are only labels. -/
theorem spread_mark (labels : List (Nat × Label)) {p j : Nat} (hp : p ≤ lines.length)
    (hj : j < (marksAt labels p).length) :
    (spread labels lines)[block labels p + j]? = (marksAt labels p)[j]? := by
  obtain ⟨before, rest, hsplit, hlength, hrest⟩ := spread_split labels hp
  rw [hsplit, ← hlength, List.getElem?_append_right (Nat.le_add_right ..), Nat.add_sub_cancel_left,
    List.getElem?_append_left hj]

/-- Everything is a line or a label in front of one. -/
theorem spread_cases (labels : List (Nat × Label)) {q : Nat} {e : Emitted}
    (h : (spread labels lines)[q]? = some e) :
    (∃ p, q = spot labels p ∧ lines[p]? = some e) ∨
    (∃ p j, p ≤ lines.length ∧ q = block labels p + j ∧ (marksAt labels p)[j]? = some e) := by
  have hlength : (spread labels lines).length = spot labels lines.length := by
    rw [spread, List.length_append, length_spread, spot]
  have hq : q < block labels (lines.length + 1) := by
    have := (List.getElem?_eq_some_iff.mp h).1
    rw [block_succ]
    omega
  obtain ⟨p, hp, hlower, hupper⟩ := exists_between (block labels) (Nat.zero_le q) hq
  have hp : p ≤ lines.length := by omega
  rw [block_succ] at hupper
  rcases Nat.lt_or_eq_of_le (Nat.le_of_lt_succ hupper) with hlt | rfl
  · obtain ⟨j, rfl⟩ := Nat.exists_eq_add_of_le hlower
    have hj : j < (marksAt labels p).length := by
      rw [spot] at hlt
      omega
    rw [spread_mark labels hp hj] at h
    exact .inr ⟨p, j, hp, rfl, h⟩
  · rw [spread_spot labels hp] at h
    exact .inl ⟨p, rfl, h⟩

theorem mem_marksAt {p : Nat} {e : Emitted} :
    e ∈ marksAt labels p ↔ ∃ l, (p, l) ∈ labels ∧ e = ⟨.label l, none, none⟩ := by
  simp only [marksAt, List.mem_map, List.mem_filter, beq_iff_eq, Prod.exists]
  constructor
  · rintro ⟨p', l, ⟨hl, rfl⟩, rfl⟩
    exact ⟨l, hl, rfl⟩
  · rintro ⟨l, hl, rfl⟩
    exact ⟨p, l, ⟨hl, rfl⟩, rfl⟩

/-! ## Labels stay apart -/

/-- The lines and the labels in between, in another order. -/
theorem spread_perm (labels : List (Nat × Label)) (lines : List Emitted) :
    (spread labels lines).Perm
      ((List.range (lines.length + 1)).flatMap (marksAt labels) ++ lines) := by
  have hlines : lines.zipIdx.flatMap (fun x => [x.1]) = lines := by
    rw [← List.map_eq_flatMap, List.zipIdx_map_fst]
  have hmarks : lines.zipIdx.flatMap (fun x => marksAt labels x.2) =
      (List.range lines.length).flatMap (marksAt labels) := by
    rw [← List.flatMap_map, List.zipIdx_map_snd, List.range_eq_range']
  have happart := (lines.zipIdx.flatMap_append_perm (fun x => marksAt labels x.2) fun x => [x.1]).symm
  rw [hlines, hmarks] at happart
  rw [List.range_succ, List.flatMap_append, List.flatMap_singleton]
  refine (happart.append_right _).trans ?_
  rw [List.append_assoc, List.append_assoc]
  exact List.perm_append_comm.append_left _

/-- The labels in front of the lines are all different if those given are. -/
theorem nodup_marks (h : (labels.map (·.2)).Nodup) (n : Nat) :
    (((List.range n).flatMap (marksAt labels)).filterMap (·.instruction.placed?)).Nodup := by
  have hmark : ∀ p, (marksAt labels p).filterMap (·.instruction.placed?) =
      (labels.filter (·.1 == p)).map (·.2) := by
    intro p
    rw [marksAt, List.filterMap_map]
    exact congrFun (List.filterMap_eq_map (f := fun x : Nat × Label => x.2)) _
  rw [List.filterMap_flatMap]
  simp only [hmark]
  refine List.nodup_flatMap.mpr ⟨fun p _ => ?_, ?_⟩
  · exact h.sublist (List.filter_sublist.map _)
  · refine List.nodup_range.imp fun {p p'} hne l hl hl' => hne ?_
    simp only [List.mem_map, List.mem_filter, beq_iff_eq] at hl hl'
    obtain ⟨x, ⟨hx, rfl⟩, rfl⟩ := hl
    obtain ⟨y, ⟨hy, rfl⟩, heq⟩ := hl'
    rw [List.inj_on_of_nodup_map h hy hx heq]

/-- Labels can be put in between if they are in use nowhere else. -/
theorem nodup_spread (hlines : (lines.filterMap (·.instruction.placed?)).Nodup)
    (hlabels : (labels.map (·.2)).Nodup)
    (hdisjoint : ∀ x ∈ labels, x.2 ∉ lines.filterMap (·.instruction.placed?)) :
    ((spread labels lines).filterMap (·.instruction.placed?)).Nodup := by
  rw [((spread_perm labels lines).filterMap _).nodup_iff, List.filterMap_append]
  refine List.nodup_append'.mpr ⟨nodup_marks hlabels _, hlines, fun l hl hl' => ?_⟩
  obtain ⟨e, he, hplaced⟩ := List.mem_filterMap.mp hl
  obtain ⟨p, -, he⟩ := List.mem_flatMap.mp he
  obtain ⟨k, hk, rfl⟩ := mem_marksAt.mp he
  cases hplaced
  exact hdisjoint _ hk hl'

end Resumption.Subroutine

namespace Resumption.Code

/-- Labels have positions if none is placed twice. -/
theorem placeLabels_of_nodup {is : List Instruction} {index : Nat} {placed : LabelPositions}
    (h : (is.filterMap Instruction.placed?).Nodup)
    (hfresh : ∀ x ∈ placed, x.1 ∉ is.filterMap Instruction.placed?) :
    ∃ positions, placeLabels index placed is = .ok positions := by
  induction is generalizing index placed with
  | nil => exact ⟨placed, rfl⟩
  | cons i is ih =>
    rw [placeLabels]
    split
    · rename_i hnone
      rw [List.filterMap_cons_none hnone] at h hfresh
      exact ih h hfresh
    · rename_i l hl
      rw [List.filterMap_cons_some hl] at h hfresh
      obtain ⟨hnew, h⟩ := List.nodup_cons.mp h
      have hnone : placed.any (·.1 == l) = false := by
        simp only [List.any_eq_false, beq_iff_eq]
        rintro x hx rfl
        exact hfresh x hx (List.mem_cons_self ..)
      rw [if_neg (by rw [hnone]; simp)]
      refine ih h (List.forall_mem_cons.mpr ⟨hnew, fun x hx hmem => ?_⟩)
      exact hfresh x hx (List.mem_cons_of_mem _ hmem)

theorem labelPositions_of_nodup {c : Code}
    (h : (c.instructions.toList.filterMap Instruction.placed?).Nodup) :
    ∃ positions, c.labelPositions = .ok positions :=
  placeLabels_of_nodup h (List.forall_mem_nil _)

end Resumption.Code
