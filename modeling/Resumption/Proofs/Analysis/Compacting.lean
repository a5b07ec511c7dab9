import Resumption.Proofs.Analysis.StackMaps

/-!
# Brief entries and compact frames

A frame can be told in brief when it has no more on its stack than one value and little changed in its
locals since the previous one (`StackMapEntry.Brief`); otherwise it is told in full.

* **`CompactFrame.brief_or_full`**: an entry is one or the other, so no count is out of range.
* **`CompactFrame.brief_iff`**: it is brief whenever some brief entry tells the frame.
* **`CompactFrame.expand_ofFrame`**: a compact frame with room for its locals is the frame it was made of.

Both directions are put together in `CompactFrame.entry_exact`.
-/

namespace Resumption

/-- Entries that do not repeat what the previous frame says. Up to three locals may come or go. -/
inductive StackMapEntry.Brief : StackMapEntry → Prop where
  /-- nothing to be bounded -/
  | same (l : Label) : Brief (.same l)
  /-- one operand at most -/
  | sameLocalsOneStack (l : Label) (t : SlotType) : Brief (.sameLocalsOneStack l t)
  /-- up to three variables fewer -/
  | chop (l : Label) {count : Nat} (some : 1 ≤ count) (few : count ≤ 3) : Brief (.chop l count)
  /-- up to three variables more -/
  | append (l : Label) {locals : List SlotType} (some : 1 ≤ locals.length)
      (few : locals.length ≤ 3) : Brief (.append l locals)

namespace CompactFrame

variable {previous current : CompactFrame}

/-! ## Entries -/

/-- **In brief or in full.** -/
theorem brief_or_full (previous : CompactFrame) (l : Label) (current : CompactFrame) :
    (previous.entry l current).Brief ∨
      previous.entry l current = .full l current.locals current.stack := by
  obtain ⟨locals, stack⟩ := current
  match stack with
  | [] =>
    simp only [entry]
    split
    · rename_i hsize
      split
      · rename_i hclose
        simp only [Bool.and_eq_true, decide_eq_true_eq] at hclose
        split
        · exact .inl (.same l)
        · exact .inl (.chop l (by omega) (by omega))
      · exact .inr rfl
    · rename_i hsize
      split
      · rename_i hclose
        simp only [Bool.and_eq_true, decide_eq_true_eq] at hclose
        refine .inl (.append l ?_ ?_)
        · rw [List.length_drop]
          omega
        · rw [List.length_drop]
          omega
      · exact .inr rfl
  | [t] =>
    simp only [entry]
    split
    · exact .inl (.sameLocalsOneStack l t)
    · exact .inr rfl
  | _ :: _ :: _ => exact .inr rfl

/-- Locals that are cut short by three at most are told in brief. -/
theorem brief_of_cut (l : Label) (hcut : current.locals <+: previous.locals)
    (hclose : previous.locals.length ≤ current.locals.length + 3) (hstack : current.stack = []) :
    (previous.entry l current).Brief := by
  have hsize := hcut.length_le
  have hfew : previous.locals.length - current.locals.length < 4 := by omega
  simp only [entry, hstack, if_pos hsize, List.isPrefixOf_iff_prefix.mpr hcut,
    decide_eq_true hfew, Bool.and_self, if_true]
  split
  · exact .same l
  · exact .chop l (by omega) (by omega)

/-- So are locals after which one to three come. -/
theorem brief_of_append (l : Label) {more : List SlotType} (hmore : 1 ≤ more.length)
    (hfew : more.length ≤ 3) (hlocals : current.locals = previous.locals ++ more)
    (hstack : current.stack = []) : (previous.entry l current).Brief := by
  have hlength : current.locals.length = previous.locals.length + more.length := by
    rw [hlocals, List.length_append]
  have hlonger : ¬ current.locals.length ≤ previous.locals.length := by omega
  have hclose : current.locals.length - previous.locals.length < 4 := by omega
  have hcut : previous.locals.isPrefixOf current.locals = true :=
    List.isPrefixOf_iff_prefix.mpr ⟨more, hlocals.symm⟩
  simp only [entry, hstack, if_neg hlonger, decide_eq_true hclose, hcut, Bool.and_self, if_true]
  refine .append l ?_ ?_
  · rw [List.length_drop]
    omega
  · rw [List.length_drop]
    omega

/-- **Brevity.** A frame is told in full only if no brief entry tells it. -/
theorem brief_iff (previous : CompactFrame) (l : Label) (current : CompactFrame) :
    (previous.entry l current).Brief ↔
      ∃ e : StackMapEntry, e.Brief ∧ previous.apply e = current := by
  constructor
  · intro hbrief
    exact ⟨_, hbrief, apply_entry previous current l⟩
  · rintro ⟨e, he, rfl⟩
    cases he with
    | same k => exact brief_of_cut l List.prefix_rfl (Nat.le_add_right _ _) rfl
    | sameLocalsOneStack k t =>
      simp only [apply, entry, if_true]
      exact .sameLocalsOneStack l t
    | @chop k count hsome hfew =>
      refine brief_of_cut l (List.take_prefix _ _) ?_ rfl
      rw [apply, List.length_take]
      omega
    | @append k more hsome hfew => exact brief_of_append l hsome hfew rfl rfl

/-! ## Compact frames -/

/-- The frame with `size` local slots that a compact frame stands for. -/
def expand (size : Nat) (compact : CompactFrame) : Frame where
  locals := Frame.padded size (compact.locals.flatMap Frame.slotsOf)
  stack := compact.stack.reverse

/-- **Expanding.** Nothing is lost of a frame in which no half of a wide local stands alone. -/
theorem expand_ofFrame {f : Frame} (h : Frame.HalvesMatch f.locals) :
    (ofFrame f).expand f.locals.length = f := by
  obtain ⟨locals, stack⟩ := f
  simp only [expand, Frame.mk.injEq]
  refine ⟨ofFrame_locals (f := ⟨locals, stack⟩) h, ?_⟩
  simp only [ofFrame, List.reverse_reverse]

/-- A frame is known from what the table writes of it. -/
theorem ofFrame_injective {f g : Frame} (hf : Frame.HalvesMatch f.locals)
    (hg : Frame.HalvesMatch g.locals) (hlength : f.locals.length = g.locals.length)
    (heq : ofFrame f = ofFrame g) : f = g := by
  rw [← expand_ofFrame hf, heq, hlength, expand_ofFrame hg]

/-- **Telling frames.** An entry is brief if it can be, and tells the frame it was made for; a compact
frame tells all of a frame in which no half of a wide local stands alone. -/
theorem entry_exact :
    (∀ (previous current : CompactFrame) (l : Label),
      (previous.entry l current).label = l ∧
      previous.apply (previous.entry l current) = current ∧
      ((previous.entry l current).Brief ∨
        previous.entry l current = .full l current.locals current.stack) ∧
      ((previous.entry l current).Brief ↔
        ∃ e : StackMapEntry, e.Brief ∧ previous.apply e = current)) ∧
    (∀ f : Frame, Frame.HalvesMatch f.locals → (ofFrame f).expand f.locals.length = f) ∧
    ∀ f g : Frame, Frame.HalvesMatch f.locals → Frame.HalvesMatch g.locals →
      f.locals.length = g.locals.length → ofFrame f = ofFrame g → f = g := by
  refine ⟨fun previous current l => ?_, fun f => expand_ofFrame, fun f g => ofFrame_injective⟩
  exact ⟨entry_label previous current l, apply_entry previous current l,
    brief_or_full previous l current, brief_iff previous l current⟩

/-- Four more locals are too many to append, and a wide local keeps its place between narrow ones. -/
theorem entry_exact_four :
    ¬ ((⟨[], []⟩ : CompactFrame).entry ⟨0⟩ ⟨[.integer, .long, .null, .float], []⟩).Brief ∧
      Frame.HalvesMatch [.integer, .long, .top, .null, .float, .top] ∧
      (ofFrame ⟨[.integer, .long, .top, .null, .float, .top], []⟩).expand 6 =
        ⟨[.integer, .long, .top, .null, .float, .top], []⟩ := by
  obtain ⟨-, hexpand, -⟩ := entry_exact
  have hhalves : Frame.HalvesMatch [.integer, .long, .top, .null, .float, .top] := by
    intro i t hi hwide
    match i with
    | 0 | 2 | 3 | 4 | 5 =>
      cases hi
      cases hwide
    | 1 => rfl
    | i + 6 => cases hi
  refine ⟨?_, hhalves, hexpand ⟨_, []⟩ hhalves⟩
  rintro ⟨⟩

end CompactFrame

end Resumption
