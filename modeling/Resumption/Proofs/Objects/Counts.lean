import Resumption.Proofs.Objects.Reading

/-!
# Reading allocates nothing for a frame

The counts of an allocator change by running code only. Whatever bytes are read onto a machine, they
stay as they are (`readSnapshot_pool`).
-/

namespace Resumption.ObjectFormat

variable {α β : Type}

/-- Reading leaves the counts of an allocator alone. -/
def LeavesPool (x : Reading Objects α) : Prop :=
  ∀ s a s', x s = .ok (a, s') → s'.objects.machine.pool = s.objects.machine.pool

namespace LeavesPool

variable {x : Reading Objects α}

theorem pure (a : α) : LeavesPool (Pure.pure a) := by
  intro s b s' hrun
  cases hrun
  rfl

theorem throw (e : SnapshotError) : LeavesPool (MonadExcept.throw e : Reading Objects α) := by
  intro s a s' hrun
  cases hrun

theorem bind {f : α → Reading Objects β} (hx : LeavesPool x) (hf : ∀ a, LeavesPool (f a)) :
    LeavesPool (x >>= f) := by
  intro s b s'' hrun
  obtain ⟨a, s', hxs, hfs⟩ := StateT.bind_ok.mp hrun
  exact (hf a s' b s'' hfs).trans (hx s a s' hxs)

theorem plain (reader : Bytes.Reader α) : LeavesPool (Snapshot.plain reader) := by
  intro s a s' hrun
  simp only [Snapshot.plain] at hrun
  split at hrun
  · cases hrun
    rfl
  · cases hrun

theorem map {f : α → β} (hx : LeavesPool x) : LeavesPool (f <$> x) := by
  rw [map_eq_pure_bind]
  exact .bind hx fun a => .pure (f a)

theorem items (h : LeavesPool x) (n : Nat) : LeavesPool (Bytes.items n x) := by
  induction n with
  | zero => exact .pure []
  | succ n ih =>
    rw [Bytes.items_succ]
    exact .bind h fun a => .bind ih fun as => .pure (a :: as)

theorem readItems (h : LeavesPool x) : LeavesPool (Snapshot.readItems x) :=
  .bind (.plain _) fun n => .items h n

theorem remember (r : Ref) : LeavesPool (remember r) := by
  intro s a s' hrun
  cases hrun
  rfl

theorem place (o : HeapObject) : LeavesPool (place o) := by
  intro s a s' hrun
  cases hrun
  rfl

theorem fill (r : Ref) (o : HeapObject) : LeavesPool (fill r o) := by
  intro s a s' hrun
  cases hrun
  rfl

/-- A string may be there already. -/
theorem readString : LeavesPool readString := by
  refine .bind (.plain _) fun text => .bind ?_ fun r => .bind (.remember r) fun _ => .pure _
  have hintern : ∀ m : Machine, (m.intern text).2.pool = m.pool := by
    intro m
    unfold Machine.intern
    split <;> rfl
  intro s a s' hrun
  cases hrun
  exact hintern _

theorem readName {check : String → Except NameError α} : LeavesPool (readName check) := by
  refine .bind (.plain _) fun text => ?_
  cases check text with
  | ok name => exact .pure name
  | error e => exact .throw _

theorem readBack : LeavesPool readBack := by
  refine .bind (.plain _) fun index => .bind ?_ fun s => ?_
  · intro s a s' hrun
    cases hrun
    rfl
  · cases s.objects.read[index]? with
    | some r => exact .pure _
    | none => exact .throw _

theorem readInstance {value : Reading Objects Value} (h : LeavesPool value) :
    LeavesPool (readInstance value) :=
  .bind .readName fun _ => .bind (.place _) fun r => .bind (.plain _) fun count =>
    .bind (.items (.bind .readName fun name => .bind h fun v => .pure (name, v)) count) fun _ =>
    .bind (.fill r _) fun _ => .pure _

theorem readArray {value : Reading Objects Value} (h : LeavesPool value) :
    LeavesPool (readArray value) := by
  refine .bind (.plain _) fun text => ?_
  cases RefType.parse text with
  | error e => exact .throw _
  | ok type =>
    exact .bind (.place _) fun r => .bind (.plain _) fun count => .bind (.items h count) fun _ =>
      .bind (.fill r _) fun _ => .pure _

/-- **Values.** -/
theorem readValue (handle : Ref) (levels : Nat) : LeavesPool (readValue handle levels) := by
  induction levels with
  | zero => exact .throw _
  | succ levels ih =>
    refine .bind (.plain _) fun tag => ?_
    -- one case for each tag, and one for all other bytes
    split
    · exact .pure _
    · exact .readBack
    · exact .readString
    · exact .readInstance ih
    · exact .readArray ih
    · exact .pure _
    · exact .bind (.remember _) fun _ => .pure _
    · exact .bind (.plain _) fun _ => .pure _
    · exact .bind (.plain _) fun _ => .pure _
    · exact .bind (.plain _) fun _ => .pure _
    · exact .bind (.plain _) fun _ => .pure _
    · exact .throw _

theorem putHandles (handle : Value) (objects : List Value) (handles : List Nat) :
    LeavesPool (liftM (Snapshot.putHandles handle objects handles) :
      Reading Objects (List Value)) := by
  intro s a s' hrun
  simp only [Snapshot.putHandles] at hrun
  split at hrun
  · cases hrun
  · cases hrun
    rfl

theorem readData (handle : Ref) (size : Nat) :
    LeavesPool (Snapshot.readData (reader handle size)) :=
  .bind (.readItems (.plain _)) fun _ => .bind (.readItems (.plain _)) fun _ =>
    .bind (.readItems (.map (.plain _))) fun _ => .bind (.readItems (.map (.plain _))) fun _ =>
    .bind (.readItems (.readValue handle _)) fun _ => .bind (.readItems (.plain _)) fun _ =>
    .bind (.putHandles _ _ _) fun _ => .pure _

theorem readFrame (handle : Ref) (size : Nat) :
    LeavesPool (Snapshot.readFrame (reader handle size)) :=
  .bind (.plain _) fun _ => .bind (.plain _) fun _ => .bind (.plain _) fun _ =>
    .bind (.plain _) fun _ => .bind (.readItems (.readValue handle _)) fun _ =>
    .bind (.readData handle size) fun _ => .bind (.readData handle size) fun _ => .pure _

end LeavesPool

/-- **Snapshots.** -/
theorem readSnapshot_pool {m m' : Machine} {handle : Ref} {bytes rest : List UInt8}
    {s : Snapshot Value} (h : m.readSnapshot handle bytes = .ok (s, m', rest)) :
    m'.pool = m.pool := by
  obtain ⟨⟨s', final⟩, hread, h⟩ := Except.bind_ok.mp h
  cases h
  have hleaves : LeavesPool (Snapshot.read (reader handle bytes.length)) := by
    refine .bind (.plain _) fun magic => ?_
    split
    · exact .throw _
    refine .bind (.plain _) fun version => ?_
    split
    · exact .throw _
    exact .bind (.readValue handle _) fun _ => .bind (.readItems (.bind (.plain _) fun count =>
      .bind (.items (.readFrame handle _) count) fun _ => .pure _)) fun _ => .pure _
  exact hleaves _ _ _ hread

end Resumption.ObjectFormat
