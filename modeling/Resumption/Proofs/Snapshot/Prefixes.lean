import Resumption.Proofs.Snapshot.RoundTrip

/-!
# Part of what was read is truncated

A reader goes from byte to byte: what it reads depends on the bytes that it takes only, and if some of
them are missing at the end, it finds out that they are before it finds anything else wrong.

`Truncates brief whole` says so of a reader `whole` and of a second one, `brief`, which reads the same
but may give up earlier because it expects fewer bytes. It is kept by everything that readers are
built from, so it holds of the reader of snapshots if it holds of the reader of objects
(`Snapshot.truncates_read`).
-/

namespace Resumption

variable {ρ α β ω : Type}

/-- These bytes are taken to read something. On them alone the outcome depends; a brief reader agrees
or gives up, and on part of them it gives up. -/
structure Takes (brief whole : Reading ρ α) (t : ρ) (used : List UInt8) (a : α) (t' : ρ) : Prop where
  /-- it reads what was used -/
  reads : ∀ rest, whole ⟨t, used ++ rest⟩ = .ok (a, ⟨t', rest⟩)
  /-- so does the brief one, or it ends early -/
  agrees : ∀ rest, brief ⟨t, used ++ rest⟩ = .ok (a, ⟨t', rest⟩) ∨
    brief ⟨t, used ++ rest⟩ = .error .truncated
  /-- the brief one ends early on less -/
  cut : ∀ front, front <+: used → front ≠ used → brief ⟨t, front⟩ = .error .truncated

/-- Whatever is read, is read from the bytes that are taken. -/
def Truncates (brief whole : Reading ρ α) : Prop :=
  ∀ t bytes a t' rest, whole ⟨t, bytes⟩ = .ok (a, ⟨t', rest⟩) →
    ∃ used, bytes = used ++ rest ∧ Takes brief whole t used a t'

namespace Truncates

/-- What looks at no bytes. -/
theorem aside {x : Reading ρ α} {f : ρ → Except SnapshotError (α × ρ)}
    (hx : ∀ t bytes, x ⟨t, bytes⟩ = (f t).map fun (a, t') => (a, ⟨t', bytes⟩)) : Truncates x x := by
  intro t bytes a t' rest h
  rw [hx] at h
  cases hf : f t with
  | error e =>
    rw [hf] at h
    cases h
  | ok out =>
    rw [hf] at h
    cases h
    have hall : ∀ rest, x ⟨t, rest⟩ = .ok (out.1, ⟨out.2, rest⟩) := fun rest => by
      rw [hx, hf]
      rfl
    refine ⟨[], rfl, hall, fun rest => .inl (hall rest), fun front hfront hne => ?_⟩
    exact absurd (List.prefix_nil.mp hfront) hne

theorem pure (a : α) : Truncates (Pure.pure a : Reading ρ α) (Pure.pure a) :=
  aside (f := fun t => .ok (a, t)) fun _ _ => rfl

/-- What never succeeds. -/
theorem throw (brief : Reading ρ α) (e : SnapshotError) :
    Truncates brief (MonadExcept.throw e : Reading ρ α) := by
  intro t bytes a t' rest h
  cases h

/-- A reader that gives up at once. -/
theorem give_up {brief whole : Reading ρ α} (h : Truncates brief whole) :
    Truncates (MonadExcept.throw .truncated : Reading ρ α) whole := by
  intro t bytes a t' rest hread
  obtain ⟨used, heq, htakes⟩ := h t bytes a t' rest hread
  exact ⟨used, heq, htakes.reads, fun _ => .inr rfl, fun _ _ _ => rfl⟩

/-- **Two parts.** A cut falls into the first part or into the second. -/
theorem bind {brief whole : Reading ρ α} {f g : α → Reading ρ β} (hx : Truncates brief whole)
    (hf : ∀ a, Truncates (f a) (g a)) : Truncates (brief >>= f) (whole >>= g) := by
  intro t bytes b t'' rest h
  obtain ⟨a, ⟨t', bytes'⟩, hread, hnext⟩ := StateT.bind_ok.mp h
  obtain ⟨used, rfl, hfirst⟩ := hx t bytes a t' bytes' hread
  obtain ⟨used', rfl, hsecond⟩ := hf a t' bytes' b t'' rest hnext
  have hfails : ∀ {bytes}, brief ⟨t, bytes⟩ = .error .truncated →
      (brief >>= f) ⟨t, bytes⟩ = .error .truncated := by
    intro bytes h
    simp only [Bind.bind, StateT.bind, Except.bind, h]
  refine ⟨used ++ used', (List.append_assoc ..).symm, fun rest => ?_, fun rest => ?_, ?_⟩
  · rw [List.append_assoc, StateT.bind_of_ok (hfirst.reads _), hsecond.reads]
  · rw [List.append_assoc]
    rcases hfirst.agrees (used' ++ rest) with hok | htruncated
    · rw [StateT.bind_of_ok hok]
      exact hsecond.agrees rest
    · exact .inr (hfails htruncated)
  · intro front hfront hne
    by_cases hlength : front.length < used.length
    · apply hfails
      apply hfirst.cut front
      · exact List.prefix_of_prefix_length_le hfront (List.prefix_append _ _) (Nat.le_of_lt hlength)
      · rintro rfl
        exact Nat.lt_irrefl _ hlength
    · -- the first part is whole, so it is the second part that is cut
      obtain ⟨front', rfl⟩ : used <+: front :=
        List.prefix_of_prefix_length_le (List.prefix_append _ _) hfront (Nat.not_lt.mp hlength)
      rcases hfirst.agrees front' with hok | htruncated
      · rw [StateT.bind_of_ok hok]
        apply hsecond.cut front'
        · exact (List.prefix_append_right_inj used).mp hfront
        · rintro rfl
          exact hne rfl
      · exact hfails htruncated

theorem map {brief whole : Reading ρ α} (f : α → β) (h : Truncates brief whole) :
    Truncates (f <$> brief) (f <$> whole) := by
  rw [map_eq_pure_bind, map_eq_pure_bind]
  exact h.bind fun a => .pure (f a)

/-! ## Without objects -/

theorem plain_bind (x : Bytes.Reader α) (f : α → Bytes.Reader β) :
    (Snapshot.plain (x >>= f) : Reading ρ β) = Snapshot.plain x >>= fun a => Snapshot.plain (f a) := by
  funext ⟨t, bytes⟩
  simp only [Snapshot.plain, Bind.bind, StateT.bind, Except.bind]
  cases x bytes <;> rfl

/-- So many bytes. -/
theorem take (n : Nat) :
    Truncates (Snapshot.plain (Bytes.take n) : Reading ρ _) (Snapshot.plain (Bytes.take n)) := by
  intro t bytes front t' rest h
  have hread : front.length = n ∧ bytes = front ++ rest ∧ t' = t := by
    simp only [Snapshot.plain, Bytes.take, List.splitAt_eq] at h
    split at h
    · rename_i heq
      cases h
      split at heq
      · cases heq
        exact ⟨‹_›, (List.take_append_drop n bytes).symm, rfl⟩
      · cases heq
    · cases h
  obtain ⟨hlength, rfl, rfl⟩ := hread
  have hall : ∀ rest, (Snapshot.plain (Bytes.take n) : Reading ρ _) ⟨t', front ++ rest⟩ =
      .ok (front, ⟨t', rest⟩) := fun rest => Snapshot.plain_eq (Bytes.take_append hlength rest)
  refine ⟨front, rfl, hall, fun rest => .inl (hall rest), fun less hless hne => ?_⟩
  have hshort : less.length < n := by
    refine lt_of_le_of_ne (hlength ▸ hless.length_le) fun heq => hne ?_
    exact hless.eq_of_length (heq.trans hlength.symm)
  have htoo : (less.take n).length ≠ n := by
    rw [List.length_take]
    omega
  simp only [Snapshot.plain, Bytes.take, List.splitAt_eq, if_neg htoo]
  rfl

theorem nat (width : Nat) :
    Truncates (Snapshot.plain (Bytes.nat width) : Reading ρ _) (Snapshot.plain (Bytes.nat width)) := by
  rw [Bytes.nat, plain_bind]
  exact (take width).bind fun _ => .pure _

theorem int32 : Truncates (Snapshot.plain Bytes.int32 : Reading ρ _) (Snapshot.plain Bytes.int32) := by
  rw [Bytes.int32, plain_bind]
  exact (nat 4).bind fun _ => .pure _

theorem int64 : Truncates (Snapshot.plain Bytes.int64 : Reading ρ _) (Snapshot.plain Bytes.int64) := by
  rw [Bytes.int64, plain_bind]
  exact (nat 8).bind fun _ => .pure _

theorem string :
    Truncates (Snapshot.plain Bytes.string : Reading ρ _) (Snapshot.plain Bytes.string) := by
  rw [Bytes.string, plain_bind]
  refine (nat 2).bind fun length => ?_
  rw [plain_bind]
  refine (take length).bind fun bytes => ?_
  split
  · exact .pure _
  · exact .throw _ _

/-! ## Counted items -/

variable {brief whole : Reading ρ α}

theorem items (h : Truncates brief whole) (n : Nat) :
    Truncates (Bytes.items n brief) (Bytes.items n whole) := by
  induction n with
  | zero => exact .pure []
  | succ n ih =>
    rw [Bytes.items_succ, Bytes.items_succ]
    exact h.bind fun _ => ih.bind fun _ => .pure _

theorem readItems (h : Truncates brief whole) :
    Truncates (Snapshot.readItems brief) (Snapshot.readItems whole) :=
  (nat 4).bind h.items

end Truncates

/-! ## Snapshots -/

namespace Snapshot

variable {brief whole : ObjectReader ω ρ}

theorem truncates_data (h : Truncates brief.read whole.read) (hhandle : brief.handle = whole.handle) :
    Truncates (readData brief) (readData whole) := by
  refine Truncates.int32.readItems.bind fun ints => ?_
  refine Truncates.int64.readItems.bind fun longs => ?_
  refine ((Truncates.nat 4).map _).readItems.bind fun floats => ?_
  refine ((Truncates.nat 8).map _).readItems.bind fun doubles => ?_
  refine h.readItems.bind fun objects => ?_
  refine (Truncates.nat 4).readItems.bind fun handles => ?_
  rw [hhandle]
  refine Truncates.bind (.aside (f := fun t =>
    (putHandles whole.handle objects handles).map (·, t)) fun t bytes => ?_) fun _ => .pure _
  cases putHandles whole.handle objects handles <;> rfl

theorem truncates_frame (h : Truncates brief.read whole.read) (hhandle : brief.handle = whole.handle) :
    Truncates (readFrame brief) (readFrame whole) := by
  refine Truncates.string.bind fun owner => ?_
  refine Truncates.int32.bind fun id => ?_
  refine Truncates.int32.bind fun version => ?_
  refine Truncates.int32.bind fun point => ?_
  refine h.readItems.bind fun monitors => ?_
  refine (truncates_data h hhandle).bind fun locals => ?_
  exact (truncates_data h hhandle).bind fun stack => .pure _

/-- **Snapshots.** If objects are read from the bytes they take, so is a snapshot. -/
theorem truncates_read (h : Truncates brief.read whole.read) (hhandle : brief.handle = whole.handle) :
    Truncates (read brief) (read whole) := by
  have hversioned : Truncates (readVersioned brief) (readVersioned whole) :=
    (Truncates.nat 2).bind fun count => ((truncates_frame h hhandle).items count).bind fun _ => .pure _
  refine (Truncates.nat 4).bind fun found => ?_
  split
  · exact .throw _ _
  refine (Truncates.nat 2).bind fun version => ?_
  split
  · exact .throw _ _
  refine h.bind fun payload => ?_
  exact hversioned.readItems.bind fun frames => .pure _

end Snapshot

end Resumption
