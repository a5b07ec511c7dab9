import Resumption.Proofs.Instrument.Leases

/-!
# Tables in use

Code is generated with one table of scratch variables, which is asked for variables and given them
back in whatever order the code needs them. `Usage` is such a table with a record of its leases: those
that are held, and all that were ever given out.

* **`Usage.Sound`** is what every request keeps (`Sound.serve`): the table tracks the leases held, a
  slot that was given back comes from a lease that is over and had its width, and leases are numbered
  in the order in which they were given out.
* **`Usage.run_sound`**: so slots never overlap, whatever is asked of a table, and a variable is only
  refused when there is no room for it.
-/

namespace Resumption

/-- What a table is asked for: a variable for values of a kind, or to take a lease back. -/
inductive Request where
  /-- asks for a variable of a kind -/
  | acquire (kind : ValueKind)
  /-- gives one back -/
  | release (lease : Lease)
deriving DecidableEq, Repr

/-- A table with the leases that are held and all that were given out, last first. -/
structure Usage where
  /-- the table -/
  table : ScratchTable
  /-- what is leased -/
  held : List Lease
  /-- everything that was ever leased, the newest first -/
  given : List Lease
deriving DecidableEq, Repr

namespace ScratchTable

variable {t t' : ScratchTable} {kind : ValueKind} {l : Lease}

/-- The slots that were given back and may be leased for values of a kind. -/
def free (t : ScratchTable) (kind : ValueKind) : List Nat :=
  if kind.width = 2 then t.freeWide else t.freeNarrow

/-- A lease takes a slot that was given back, or a new one that there is still room for. -/
theorem acquire_ok (hok : t.acquire kind = .ok (l, t')) :
    l.kind = kind ∧ l.generation = t.generation + 1 ∧ t'.generation = t.generation + 1 ∧
      (∀ k, t'.free k ⊆ t.free k) ∧ (t'.nextSlot = t.nextSlot ∨ t'.nextSlot ≤ 65535) := by
  simp only [acquire, lease] at hok
  split at hok
  · split at hok
    · rename_i slot rest hfree
      cases hok
      refine ⟨rfl, rfl, rfl, fun k => ?_, .inl rfl⟩
      simp only [free, hfree]
      split
      · exact List.subset_cons_self slot rest
      · exact List.Subset.refl _
    · split at hok
      · rename_i hroom
        cases hok
        exact ⟨rfl, rfl, rfl, fun k => List.Subset.refl _, .inr (Nat.le_of_lt_succ hroom)⟩
      · cases hok
  · split at hok
    · rename_i slot rest hfree
      cases hok
      refine ⟨rfl, rfl, rfl, fun k => ?_, .inl rfl⟩
      simp only [free, hfree]
      split
      · exact List.Subset.refl _
      · exact List.subset_cons_self slot rest
    · split at hok
      · rename_i hroom
        cases hok
        exact ⟨rfl, rfl, rfl, fun k => List.Subset.refl _, .inr (Nat.le_of_lt_succ hroom)⟩
      · cases hok

/-- **Refusals.** There is no variable just when no slot of the width was given back and a new one
would pass the last slot. -/
theorem acquire_error_iff : (∃ e, t.acquire kind = .error e) ↔
    t.free kind = [] ∧ 65535 < t.nextSlot + kind.width := by
  have hfresh (x : Lease × ScratchTable) : (∃ e, (if t.nextSlot + kind.width < 0x10000 then .ok x
      else .error (.unanalyzable .tooManyVariables) : Except CodeError _) = .error e) ↔
        65535 < t.nextSlot + kind.width := by
    split
    · rename_i hroom
      refine ⟨fun he => ?_, fun hpast => absurd hroom (by omega)⟩
      obtain ⟨e, he⟩ := he
      cases he
    · rename_i hroom
      exact ⟨fun _ => by omega, fun _ => ⟨_, rfl⟩⟩
  simp only [acquire, free]
  split
  · cases hfree : t.freeWide with
    | nil => simpa using hfresh _
    | cons slot rest => simp
  · cases hfree : t.freeNarrow with
    | nil => simpa using hfresh _
    | cons slot rest => simp

theorem mem_free_release {k : ValueKind} {slot : Nat} (hslot : slot ∈ (t.release l).free k) :
    slot ∈ t.free k ∨ l.span = ⟨slot, k.width⟩ := by
  have hwidth (k : ValueKind) : k.width = 1 ∨ k.width = 2 := by cases k <;> simp [ValueKind.width]
  simp only [release, free] at hslot ⊢
  by_cases hl : l.kind.width = 2
  · by_cases hk : k.width = 2
    · simp only [if_pos hl, if_pos hk, List.mem_cons] at hslot ⊢
      refine hslot.symm.imp_right fun heq => ?_
      rw [Lease.span, heq, hl, hk]
    · simp only [if_pos hl, if_neg hk] at hslot ⊢
      exact .inl hslot
  · by_cases hk : k.width = 2
    · simp only [if_neg hl, if_pos hk] at hslot ⊢
      exact .inl hslot
    · simp only [if_neg hl, if_neg hk, List.mem_cons] at hslot ⊢
      refine hslot.symm.imp_right fun heq => ?_
      rw [Lease.span, heq, (hwidth l.kind).resolve_right hl, (hwidth k).resolve_right hk]

end ScratchTable

namespace Usage

/-- A table that leases the slots from the first one on. -/
def start (first : Nat) : Usage := ⟨.ofFirst first, [], []⟩

/-- One request. Only a lease that is held can be given back, so no lease is given back twice. -/
def serve (u : Usage) : Request → Usage
  | .acquire kind =>
    match u.table.acquire kind with
    | .ok (l, table) => ⟨table, l :: u.held, l :: u.given⟩
    | .error _ => u
  | .release l =>
    if l ∈ u.held then { u with table := u.table.release l, held := u.held.erase l } else u

/-- One request after the other. -/
def run (first : Nat) (requests : List Request) : Usage := requests.foldl serve (start first)

/-- **What every request keeps.** -/
structure Sound (first : Nat) (u : Usage) : Prop where
  /-- the table knows what is leased -/
  tracks : ScratchTable.Tracks first u.held u.table
  /-- variables can be addressed -/
  room : u.table.nextSlot ≤ max first 65535
  /-- what is leased was given -/
  given : u.held.Sublist u.given
  /-- a slot that was given back is that of a lease that is over, words and all -/
  free : ∀ kind, ∀ slot ∈ u.table.free kind, ∃ l ∈ u.given, l ∉ u.held ∧ l.span = ⟨slot, kind.width⟩
  /-- later leases have larger numbers -/
  numbered : u.given.Pairwise fun l earlier => earlier.generation < l.generation
  /-- no number is above the last one -/
  newest : ∀ l ∈ u.given, l.generation ≤ u.table.generation

namespace Sound

variable {first : Nat} {u : Usage}

theorem start (first : Nat) : Sound first (.start first) where
  tracks := .ofFirst first
  room := Nat.le_max_left ..
  given := .slnil
  free := by
    intro kind slot hslot
    simp only [Usage.start, ScratchTable.free, ScratchTable.ofFirst, ite_self] at hslot
    cases hslot
  numbered := .nil
  newest := nofun

theorem nodup (h : Sound first u) : u.given.Nodup :=
  h.numbered.imp fun {l earlier} hlt (heq : l = earlier) => Nat.lt_irrefl _ (heq ▸ hlt)

theorem acquire {kind : ValueKind} {l : Lease} {t : ScratchTable} (h : Sound first u)
    (hok : u.table.acquire kind = .ok (l, t)) : Sound first ⟨t, l :: u.held, l :: u.given⟩ := by
  obtain ⟨-, hgeneration, hnext, hfree, hroom⟩ := ScratchTable.acquire_ok hok
  have hnew : ∀ earlier ∈ u.given, earlier.generation < l.generation := fun earlier hmem =>
    hgeneration ▸ Nat.lt_succ_of_le (h.newest earlier hmem)
  exact {
    tracks := (h.tracks.acquire hok).2
    room := by
      rcases hroom with heq | hle
      · exact heq ▸ h.room
      · exact Nat.le_trans hle (Nat.le_max_right ..)
    given := h.given.cons_cons l
    free := by
      intro k slot hslot
      obtain ⟨past, hgiven, hheld, hspan⟩ := h.free k slot (hfree k hslot)
      refine ⟨past, List.mem_cons_of_mem l hgiven, fun hmem => ?_, hspan⟩
      rcases List.mem_cons.mp hmem with rfl | hmem
      · -- the lease that is over has an earlier number than the new one
        exact Nat.lt_irrefl _ (hnew _ hgiven)
      · exact hheld hmem
    numbered := List.pairwise_cons.mpr ⟨hnew, h.numbered⟩
    newest := by
      intro l' hl'
      rcases List.mem_cons.mp hl' with rfl | hl'
      · exact Nat.le_of_eq (hgeneration.trans hnext.symm)
      · exact Nat.le_trans (Nat.le_of_lt (hnew l' hl')) (Nat.le_of_eq (hgeneration.trans hnext.symm)) }

theorem release {l : Lease} (h : Sound first u) (hl : l ∈ u.held) :
    Sound first { u with table := u.table.release l, held := u.held.erase l } := by
  have hnodup : u.held.Nodup := h.nodup.sublist h.given
  have hsame : (u.table.release l).nextSlot = u.table.nextSlot ∧
      (u.table.release l).generation = u.table.generation := by
    simp only [ScratchTable.release]
    split <;> exact ⟨rfl, rfl⟩
  exact {
    tracks := (h.tracks.perm (List.perm_cons_erase hl).symm).release
    room := hsame.1 ▸ h.room
    given := List.erase_sublist.trans h.given
    free := by
      intro k slot hslot
      rcases ScratchTable.mem_free_release hslot with hold | hspan
      · obtain ⟨past, hgiven, hheld, hspan⟩ := h.free k slot hold
        exact ⟨past, hgiven, fun hmem => hheld (List.mem_of_mem_erase hmem), hspan⟩
      · exact ⟨l, h.given.subset hl, hnodup.not_mem_erase, hspan⟩
    numbered := h.numbered
    newest := fun l' hl' => hsame.2 ▸ h.newest l' hl' }

/-- The step. -/
theorem serve (h : Sound first u) (r : Request) : Sound first (u.serve r) := by
  cases r with
  | acquire kind =>
    simp only [Usage.serve]
    split
    · rename_i hok
      exact h.acquire hok
    · exact h
  | release l =>
    simp only [Usage.serve]
    split
    · rename_i hl
      exact h.release hl
    · exact h

end Sound

/-- Whatever is asked of a table, it stays sound. -/
theorem sound_foldl {first : Nat} {u : Usage} (h : Sound first u) (requests : List Request) :
    Sound first (requests.foldl serve u) := by
  induction requests generalizing u with
  | nil => exact h
  | cons r requests ih => exact ih (h.serve r)

/-- **Slots never overlap**, whatever is asked of a table: leases that are held and slots that were
given back are apart, between the first slot and the first that was never leased; a slot that was
given back has the words of a lease that is over; a new lease has the kind that was asked for and a
number above all others; and a variable is refused only for want of room, which leaves everything as
it is. -/
theorem run_sound (first : Nat) (requests : List Request) (kind : ValueKind) :
    let u := run first requests
    (u.table.spans u.held).Pairwise Span.Apart ∧
      (∀ s ∈ u.table.spans u.held, first ≤ s.slot ∧ s.slot + s.width ≤ u.table.nextSlot) ∧
      u.table.nextSlot ≤ max first 65535 ∧
      (∀ slot ∈ u.table.free kind, ∃ l ∈ u.given, l ∉ u.held ∧ l.span = ⟨slot, kind.width⟩) ∧
      (u.given.map Lease.generation).Nodup ∧
      (∀ l t, u.table.acquire kind = .ok (l, t) →
        l.kind = kind ∧ ∀ earlier ∈ u.given, earlier.generation < l.generation) ∧
      ((∃ e, u.table.acquire kind = .error e) ↔
        u.table.free kind = [] ∧ 65535 < u.table.nextSlot + kind.width) ∧
      ∀ e, u.table.acquire kind = .error e → u.serve (.acquire kind) = u := by
  intro u
  have h : Sound first u := sound_foldl (.start first) requests
  refine ⟨h.tracks.apart, h.tracks.bounds, h.room, h.free kind, ?_, fun l t hok => ?_,
    ScratchTable.acquire_error_iff, fun e he => ?_⟩
  · exact List.pairwise_map.mpr (h.numbered.imp fun hlt => (Nat.ne_of_lt hlt).symm)
  · obtain ⟨hkind, hgeneration, -⟩ := ScratchTable.acquire_ok hok
    exact ⟨hkind, fun earlier hmem => hgeneration ▸ Nat.lt_succ_of_le (h.newest earlier hmem)⟩
  · simp only [serve, he]

/-- A slot is leased again for another kind of value with its width, and not for a wider one. -/
example :
    let u := run 3 [.acquire .int, .acquire .long, .release ⟨3, .int, 1⟩, .acquire .object,
      .acquire .double]
    u.held = [⟨6, .double, 4⟩, ⟨3, .object, 3⟩, ⟨4, .long, 2⟩] ∧ u.table.nextSlot = 8 := by
  decide

end Usage

end Resumption
