import Resumption.Machine.ObjectFormat
import Resumption.Proofs.Machine.Growth
import Resumption.Proofs.Snapshot.RoundTrip

/-!
# Reading keeps machines sound

Whatever bytes are read onto a sound machine, the machine is sound afterwards and holds what it held
(`Leads`). There is one rule for each way to put readers together, and each part of the format has
one lemma, from values (`readValue_leads`) up to snapshots (`readSnapshot_leads`).
-/

namespace Resumption.ObjectFormat

variable {D : Discipline} {α β : Type}

/-- If reading succeeds on a sound machine, it leads to a later one that is sound, and the result
satisfies `V`. -/
def Leads (D : Discipline) (V : α → Prop) (x : Reading Objects α) : Prop :=
  ∀ s a s', s.objects.machine.Sound D → x s = .ok (a, s') →
    s.objects.machine.Precedes s'.objects.machine ∧ s'.objects.machine.Sound D ∧ V a

namespace Leads

variable {V : α → Prop} {W : β → Prop} {x : Reading Objects α}

theorem pure {a : α} (h : V a) : Leads D V (Pure.pure a) := by
  intro s b s' hs hrun
  cases hrun
  exact ⟨.refl _, hs, h⟩

theorem throw (e : SnapshotError) : Leads D V (MonadExcept.throw e : Reading Objects α) := by
  intro s a s' hs hrun
  cases hrun

theorem bind {f : α → Reading Objects β} (hx : Leads D V x) (hf : ∀ a, V a → Leads D W (f a)) :
    Leads D W (x >>= f) := by
  intro s b s'' hs hrun
  obtain ⟨a, s', hxs, hfs⟩ := StateT.bind_ok.mp hrun
  obtain ⟨hlater, hs', ha⟩ := hx s a s' hs hxs
  obtain ⟨hlater', hs'', hb⟩ := hf a ha s' b s'' hs' hfs
  exact ⟨hlater.trans hlater', hs'', hb⟩

/-- What holds no objects. -/
theorem plain (reader : Bytes.Reader α) : Leads D (fun _ => True) (Snapshot.plain reader) := by
  intro s a s' hs hrun
  simp only [Snapshot.plain] at hrun
  split at hrun
  · cases hrun
    exact ⟨.refl _, hs, trivial⟩
  · cases hrun

theorem map {f : α → β} (hx : Leads D V x) (hf : ∀ a, V a → W (f a)) :
    Leads D W (f <$> x) := by
  rw [map_eq_pure_bind]
  exact .bind hx fun a ha => .pure (hf a ha)

theorem items (h : Leads D V x) (n : Nat) :
    Leads D (fun as => ∀ a ∈ as, V a) (Bytes.items n x) := by
  induction n with
  | zero => exact .pure nofun
  | succ n ih =>
    rw [Bytes.items_succ]
    exact .bind h fun a ha => .bind ih fun as has => .pure (List.forall_mem_cons.mpr ⟨ha, has⟩)

theorem readItems (h : Leads D V x) :
    Leads D (fun as => ∀ a ∈ as, V a) (Snapshot.readItems x) :=
  .bind (.plain _) fun n _ => .items h n

end Leads

/-! ## Values -/

theorem remember_leads (r : Ref) : Leads D (fun _ => True) (remember r) := by
  intro s a s' hs hrun
  cases hrun
  exact ⟨.refl _, hs, trivial⟩

theorem readString_leads : Leads D (· ≠ .top) readString := by
  refine .bind (.plain _) fun text _ => .bind (V := fun _ => True) ?_ fun r _ =>
    .bind (remember_leads r) fun _ _ => .pure nofun
  intro s a s' hs hrun
  cases hrun
  exact ⟨.intern _ _, hs.intern _, trivial⟩

theorem readName_leads {check : String → Except NameError α} :
    Leads D (fun _ => True) (readName check) := by
  refine .bind (.plain _) fun text _ => ?_
  cases check text with
  | ok name => exact .pure trivial
  | error e => exact .throw _

theorem readBack_leads : Leads D (· ≠ .top) readBack := by
  refine .bind (.plain _) fun index _ => .bind (V := fun _ => True) ?_ fun s _ => ?_
  · intro s a s' hs hrun
    cases hrun
    exact ⟨.refl _, hs, trivial⟩
  · cases s.objects.read[index]? with
    | some r => exact .pure nofun
    | none => exact .throw _

/-- An object is placed, its contents are read, and it is filled. What is read in between leaves it
what it is. -/
theorem place_leads {o : HeapObject} (ho : o.Sound D.key) (hstring : ∀ s, o ≠ .string s)
    (hstream : o ≠ .printStream) {V : α → Prop} {contents : Reading Objects α}
    (filled : α → HeapObject) (hcontents : Leads D V contents)
    (hfilled : ∀ a, V a → o.Evolves (filled a) ∧ (filled a).Sound D.key) :
    Leads D (· ≠ Value.top) (do
      let r ← place o
      let a ← contents
      fill r (filled a)
      return Value.ref r) := by
  intro s v s' hs hrun
  obtain ⟨r, s₁, hplace, hrun⟩ := StateT.bind_ok.mp hrun
  cases hplace
  obtain ⟨a, s₂, hread, hrun⟩ := StateT.bind_ok.mp hrun
  cases hrun
  have hplaced := hs.alloc ho hstring hstream
  obtain ⟨hlater, hsound, ha⟩ := hcontents _ a s₂ hplaced hread
  obtain ⟨hevolves, hnew⟩ := hfilled a ha
  have hkind : ∀ o', s₂.objects.machine.object? (s.objects.machine.alloc o).1 = some o' →
      o'.Evolves (filled a) := fun o' ho' =>
    (hlater.evolves (Machine.object?_alloc_self s.objects.machine o) ho').symm.trans hevolves
  exact ⟨((Machine.Precedes.alloc _ o).trans hlater).trans (.set hkind),
    hsound.set hkind fun _ _ => hnew, nofun⟩

/-- Fields in the order in which they are read become fields in the order of their names. -/
theorem foldl_set_sound (fields : List (MemberName × Value)) (hfields : ∀ f ∈ fields, f.2 ≠ .top)
    (made : FieldValues) (hmade : ∀ f ∈ made, f.2 ≠ .top) (hordered : FieldValues.Ordered made) :
    (∀ f ∈ fields.foldl (fun fields x => fields.set x.1 x.2) made, f.2 ≠ .top) ∧
      FieldValues.Ordered (fields.foldl (fun fields x => fields.set x.1 x.2) made) := by
  induction fields generalizing made with
  | nil => exact ⟨hmade, hordered⟩
  | cons x fields ih =>
    refine ih (fun f hf => hfields f (List.mem_cons_of_mem _ hf)) _ (fun f hf => ?_)
      (hordered.set x.1 x.2)
    rcases FieldValues.mem_set hf with rfl | hf
    · exact hfields x (List.mem_cons_self ..)
    · exact hmade f hf

theorem readInstance_leads {value : Reading Objects Value} (h : Leads D (· ≠ .top) value) :
    Leads D (· ≠ .top) (readInstance value) := by
  refine .bind readName_leads fun owner _ => ?_
  have hfields : Leads D (fun fields : List (MemberName × Value) => ∀ f ∈ fields, f.2 ≠ .top) (do
      let count ← Snapshot.plain (Bytes.nat 2)
      Bytes.items count do
        let name ← readName MemberName.ofString
        return (name, ← value)) :=
    .bind (.plain _) fun count _ => .items (V := fun f : MemberName × Value => f.2 ≠ .top)
      (.bind readName_leads fun name _ => .bind h fun v hv => .pure hv) count
  have hplaced := place_leads (o := .instance owner []) (.instance_ nofun .nil) nofun nofun
    (fun fields => .instance owner (fields.foldl (fun fields x => fields.set x.1 x.2) [])) hfields
    fun fields hf => by
      obtain ⟨htop, hordered⟩ := foldl_set_sound fields hf [] nofun .nil
      exact ⟨rfl, .instance_ htop hordered⟩
  simp only [bind_assoc] at hplaced
  exact hplaced

theorem readArray_leads {value : Reading Objects Value} (h : Leads D (· ≠ .top) value) :
    Leads D (· ≠ .top) (readArray value) := by
  refine .bind (.plain _) fun text _ => ?_
  cases RefType.parse text with
  | error e => exact .throw _
  | ok type =>
    have hvalues : Leads D (fun values : List Value => ∀ v ∈ values, v ≠ .top) (do
        let count ← Snapshot.plain (Bytes.nat 4)
        Bytes.items count value) := .bind (.plain _) fun count _ => .items h count
    have hplaced := place_leads (o := .array type #[]) (.array nofun) nofun nofun
      (fun values => .array type values.toArray) hvalues
      fun values hv => ⟨rfl, .array fun v hmem => hv v (List.mem_toArray.mp hmem)⟩
    simp only [bind_assoc] at hplaced
    exact hplaced

/-- **Values.** -/
theorem readValue_leads (handle : Ref) (levels : Nat) :
    Leads D (· ≠ .top) (readValue handle levels) := by
  induction levels with
  | zero => exact .throw _
  | succ levels ih =>
    refine .bind (.plain _) fun tag _ => ?_
    -- one case for each tag, and one for all other bytes
    split
    · exact .pure nofun
    · exact readBack_leads
    · exact readString_leads
    · exact readInstance_leads ih
    · exact readArray_leads ih
    · exact .pure nofun
    · exact .bind (remember_leads _) fun _ _ => .pure nofun
    · exact .bind (.plain _) fun _ _ => .pure nofun
    · exact .bind (.plain _) fun _ _ => .pure nofun
    · exact .bind (.plain _) fun _ _ => .pure nofun
    · exact .bind (.plain _) fun _ _ => .pure nofun
    · exact .throw _

/-! ## Snapshots -/

/-- No object of a frame is missing. -/
def Definite (f : SavedFrame Value) : Prop :=
  (∀ v ∈ f.locals.objects, v ≠ .top) ∧ ∀ v ∈ f.stack.objects, v ≠ .top

theorem putHandles_leads {handle : Value} (hhandle : handle ≠ .top) {objects : List Value}
    (hobjects : ∀ v ∈ objects, v ≠ .top) (handles : List Nat) :
    Leads D (fun objects => ∀ v ∈ objects, v ≠ .top)
      (liftM (Snapshot.putHandles handle objects handles) : Reading Objects (List Value)) := by
  intro s a s' hs hrun
  have hfold : ∀ (handles : List Nat) (objects : List Value), (∀ v ∈ objects, v ≠ .top) →
      ∀ v ∈ handles.foldl (fun objects index => objects.set index handle) objects, v ≠ .top := by
    intro handles
    -- one handle after the other is put among the objects
    induction handles with
    | nil => exact fun _ h => h
    | cons index handles ih =>
      intro objects h
      refine ih _ fun v hv => ?_
      rcases List.mem_or_eq_of_mem_set hv with hv | rfl
      · exact h v hv
      · exact hhandle
  simp only [Snapshot.putHandles] at hrun
  split at hrun
  · cases hrun
  · cases hrun
    exact ⟨.refl _, hs, hfold handles objects hobjects⟩

theorem readData_leads (handle : Ref) (size : Nat) :
    Leads D (fun d => ∀ v ∈ d.objects, v ≠ .top) (Snapshot.readData (reader handle size)) := by
  have hvalue : Leads D (· ≠ .top) (reader handle size).read := readValue_leads handle (size + 1)
  have hhandle : (reader handle size).handle ≠ .top := nofun
  have hbits : ∀ {α : Type} (f : Nat → α) (width : Nat), Leads D (fun _ => True)
      (f <$> Snapshot.plain (Bytes.nat width)) := fun f width => .map (.plain _) fun _ _ => trivial
  exact .bind (.readItems (.plain _)) fun _ _ => .bind (.readItems (.plain _)) fun _ _ =>
    .bind (.readItems (hbits _ _)) fun _ _ => .bind (.readItems (hbits _ _)) fun _ _ =>
    .bind (.readItems hvalue) fun objects hobjects => .bind (.readItems (.plain _)) fun handles _ =>
    .bind (putHandles_leads hhandle hobjects handles) fun _ h => .pure h

theorem readFrame_leads (handle : Ref) (size : Nat) :
    Leads D Definite (Snapshot.readFrame (reader handle size)) := by
  have hvalue : Leads D (· ≠ .top) (reader handle size).read := readValue_leads handle (size + 1)
  exact .bind (.plain _) fun _ _ => .bind (.plain _) fun _ _ => .bind (.plain _) fun _ _ =>
    .bind (.plain _) fun _ _ => .bind (.readItems hvalue) fun _ _ =>
    .bind (readData_leads handle size) fun _ hlocals =>
    .bind (readData_leads handle size) fun _ hstack => .pure ⟨hlocals, hstack⟩

/-- **Snapshots.** Any bytes at all may be read. -/
theorem readSnapshot_leads {m m' : Machine} {handle : Ref} {bytes rest : List UInt8}
    {s : Snapshot Value} (hm : m.Sound D)
    (h : m.readSnapshot handle bytes = .ok (s, m', rest)) :
    m.Precedes m' ∧ m'.Sound D ∧ ∀ v ∈ s.frames, ∀ f ∈ v.representations, Definite f := by
  obtain ⟨⟨s', final⟩, hread, h⟩ := Except.bind_ok.mp h
  cases h
  have hleads : Leads D (fun s => ∀ v ∈ s.frames, ∀ f ∈ v.representations, Definite f)
      (Snapshot.read (reader handle bytes.length)) := by
    have hversioned : Leads D (fun v => ∀ f ∈ v.representations, Definite f)
        (Snapshot.readVersioned (reader handle bytes.length)) :=
      .bind (.plain _) fun count _ => .bind (.items (readFrame_leads handle _) count) fun _ hfs =>
        .pure hfs
    refine .bind (.plain _) fun magic _ => ?_
    split
    · exact .throw _
    refine .bind (.plain _) fun version _ => ?_
    split
    · exact .throw _
    exact .bind (readValue_leads handle _) fun _ _ => .bind (.readItems hversioned) fun _ hframes =>
      .pure fun v hv => hframes v (List.mem_reverse.mp hv)
  exact hleads _ _ _ hm hread

end Resumption.ObjectFormat
