import Resumption.Instrument.Scratch
import Resumption.Proofs.Machine.Cells

/-!
# Leased variables

A slot is leased to one holder at a time. What a table keeps true is said once, as `Tracks`: the
slots of the leases in use and the slots that were given back are apart from each other, above the
locals of the method, and below the first slot that was never leased and 0x10000. Slots that were given back keep
their width, so no lease ever splits another one's words.
-/

namespace Resumption

/-- The slots of a lease. -/
def Lease.span (l : Lease) : Span := ⟨l.slot, l.kind.width⟩

theorem Lease.span_object {l : Lease} (h : l.kind = .object) : l.span = ⟨l.slot, 1⟩ := by
  rw [span, h]
  rfl

namespace ScratchTable

/-- The slots that are leased, and those that were given back. -/
def spans (t : ScratchTable) (held : List Lease) : List Span :=
  held.map Lease.span ++ (t.freeNarrow.map (⟨·, 1⟩) ++ t.freeWide.map (⟨·, 2⟩))

/-- What a table keeps true of the leases in use; `first` is the first slot it may lease. -/
structure Tracks (first : Nat) (held : List Lease) (t : ScratchTable) : Prop where
  /-- variables that are held or free are apart from one another -/
  apart : (t.spans held).Pairwise Span.Apart
  /-- they were all given by the table -/
  bounds : ∀ s ∈ t.spans held, first ≤ s.slot ∧ s.slot + s.width ≤ t.nextSlot
  /-- they can be addressed -/
  room : ∀ s ∈ t.spans held, s.slot + s.width < 0x10000
  /-- the table begins behind the variables of the body -/
  begun : first ≤ t.nextSlot

namespace Tracks

variable {first : Nat} {held : List Lease} {t t' : ScratchTable}

theorem ofFirst (first : Nat) : Tracks first [] (.ofFirst first) :=
  ⟨.nil, nofun, nofun, Nat.le_refl first⟩

/-- Nothing depends on the order in which slots are listed. -/
theorem of_perm {held' : List Lease} (h : Tracks first held t)
    (hperm : (t'.spans held').Perm (t.spans held)) (hnext : t'.nextSlot = t.nextSlot) :
    Tracks first held' t' where
  apart := hperm.symm.pairwise h.apart fun hs => hs.symm
  bounds := fun s hs => by
    rw [hnext]
    exact h.bounds s (hperm.mem_iff.mp hs)
  room := fun s hs => h.room s (hperm.mem_iff.mp hs)
  begun := hnext ▸ h.begun

theorem perm {held' : List Lease} (h : Tracks first held t) (hperm : held'.Perm held) :
    Tracks first held' t :=
  h.of_perm ((hperm.map Lease.span).append_right _) rfl

/-- A slot above all others. -/
theorem fresh (h : Tracks first held t) {kind : ValueKind} (generation : Nat)
    (hroom : t.nextSlot + kind.width < 0x10000) :
    Tracks first (⟨t.nextSlot, kind, generation⟩ :: held)
      { t with nextSlot := t.nextSlot + kind.width, generation } where
  apart := List.pairwise_cons.mpr ⟨fun s hs => .inr (h.bounds s hs).2, h.apart⟩
  bounds := fun s hs => by
    rcases List.mem_cons.mp hs with rfl | hs
    · exact ⟨h.begun, Nat.le_refl _⟩
    · exact ⟨(h.bounds s hs).1, Nat.le_add_right_of_le (h.bounds s hs).2⟩
  room := fun s hs => by
    rcases List.mem_cons.mp hs with rfl | hs
    · exact hroom
    · exact h.room s hs
  begun := Nat.le_add_right_of_le h.begun

/-- A new lease is apart from all others. -/
theorem acquire {kind : ValueKind} {l : Lease} (h : Tracks first held t)
    (hok : t.acquire kind = .ok (l, t')) : l.kind = kind ∧ Tracks first (l :: held) t' := by
  have hwidth : kind.width = 1 ∨ kind.width = 2 := by cases kind <;> simp [ValueKind.width]
  simp only [ScratchTable.acquire, lease] at hok
  split at hok
  · rename_i hwide
    split at hok
    · -- a wide slot that was given back
      rename_i slot rest hfree
      cases hok
      refine ⟨rfl, h.of_perm ?_ rfl⟩
      simp only [spans, hfree, List.map_cons, Lease.span, hwide, List.cons_append]
      rw [← List.append_assoc, ← List.append_assoc]
      exact List.perm_middle.symm
    · split at hok
      · cases hok
        exact ⟨rfl, h.fresh _ ‹_›⟩
      · cases hok
  · rename_i hnarrow
    split at hok
    · rename_i slot rest hfree
      cases hok
      refine ⟨rfl, h.of_perm ?_ rfl⟩
      simp only [spans, hfree, List.map_cons, Lease.span, hwidth.resolve_right hnarrow,
        List.cons_append]
      exact List.perm_middle.symm
    · split at hok
      · cases hok
        exact ⟨rfl, h.fresh _ ‹_›⟩
      · cases hok

/-- A lease that is given back. -/
theorem release {l : Lease} (h : Tracks first (l :: held) t) : Tracks first held (t.release l) := by
  have hwidth : l.kind.width = 1 ∨ l.kind.width = 2 := by cases l.kind <;> simp [ValueKind.width]
  simp only [ScratchTable.release]
  split
  · rename_i hwide
    refine h.of_perm ?_ rfl
    simp only [spans, List.map_cons, Lease.span, hwide, List.cons_append]
    rw [← List.append_assoc, ← List.append_assoc]
    exact List.perm_middle
  · rename_i hnarrow
    refine h.of_perm ?_ rfl
    simp only [spans, List.map_cons, Lease.span, hwidth.resolve_right hnarrow, List.cons_append]
    exact List.perm_middle

/-- Leases in use are apart from each other. -/
theorem held_apart (h : Tracks first held t) :
    held.Pairwise fun l l' => l.span.Apart l'.span :=
  List.pairwise_map.mp (List.pairwise_append.mp h.apart).1

/-- Leases in use are above the locals of the method. -/
theorem held_first (h : Tracks first held t) : ∀ l ∈ held, first ≤ l.slot := fun l hl =>
  (h.bounds l.span (List.mem_append_left _ (List.mem_map_of_mem hl))).1

/-- Leases in use are below 0x10000. -/
theorem held_room (h : Tracks first held t) : ∀ l ∈ held, l.slot + l.kind.width < 0x10000 :=
  fun l hl => h.room l.span (List.mem_append_left _ (List.mem_map_of_mem hl))

end Tracks

end ScratchTable

end Resumption
