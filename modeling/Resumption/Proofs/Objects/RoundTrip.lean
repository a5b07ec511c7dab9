import Resumption.Proofs.Descriptor.Exact
import Resumption.Proofs.Objects.Depth
import Resumption.Proofs.Objects.InStep
import Resumption.Proofs.Snapshot.RoundTrip

/-!
# Heap objects are read as they were written

By induction on how deep objects are inside of one another, every value is read back as its image,
with writer and reader in step before and after (`readsBack_value`):

* the continuation, an object that was written before, and values that are no references take no new
  index;
* a string is interned and the print stream found again, at places that no other object is read as
  (`reads_string`, `reads_stream`);
* an instance or an array is placed, its contents are read while it is open, and then it is filled
  (`reads_instance`, `reads_array`).
-/

namespace Resumption

namespace FieldValues

theorem set_append {fields : FieldValues} {name : MemberName} (v : Value)
    (h : ∀ f ∈ fields, f.1.lt name = true) : fields.set name v = fields ++ [(name, v)] := by
  induction fields with
  | nil => rfl
  | cons f fields ih =>
    obtain ⟨hfirst, hrest⟩ := List.forall_mem_cons.mp h
    have hnot : ¬ name.lt f.1 = true := by
      intro hlt
      have hself := lt_trans hfirst hlt
      simp only [MemberName.lt, decide_eq_true_eq] at hself
      exact String.lt_irrefl _ hself
    have hne : name ≠ f.1 := by
      rintro rfl
      exact hnot hfirst
    rw [set, if_neg hnot, if_neg hne, ih hrest]
    rfl

/-- Fields that are set in order come after those that are there. -/
theorem foldl_set (front : FieldValues) {fields : FieldValues} (h : Ordered (front ++ fields)) :
    fields.foldl (fun (fields : FieldValues) (name, v) => fields.set name v) front =
      front ++ fields := by
  induction fields generalizing front with
  | nil => exact (List.append_nil front).symm
  | cons f fields ih =>
    obtain ⟨name, v⟩ := f
    have hfront : ∀ g ∈ front, g.1.lt name = true := fun g hg =>
      (List.pairwise_append.mp h).2.2 g hg _ (List.mem_cons_self ..)
    have hsplit : front ++ (name, v) :: fields = front ++ [(name, v)] ++ fields := by
      rw [List.append_assoc]
      rfl
    simp only [List.foldl_cons]
    rw [set_append v hfront, hsplit, ih]
    rw [← hsplit]
    exact h

theorem Ordered.of_names {fields read : FieldValues} (h : Ordered fields)
    (hnames : List.Forall₂ (fun f g => g.1 = f.1) fields read) : Ordered read := by
  have hsame : read.map Prod.fst = fields.map Prod.fst := by
    induction hnames with
    | nil => rfl
    | cons hfirst _ ih =>
      rw [List.map_cons, List.map_cons, hfirst, ih (List.pairwise_cons.mp h).2]
  have hmap : (fields.map Prod.fst).Pairwise fun a b => a.lt b = true := List.pairwise_map.mpr h
  rw [← hsame] at hmap
  exact List.pairwise_map.mp hmap

end FieldValues

namespace ObjectFormat

open Snapshot (plain plain_eq Pairing)

variable {m : Machine} {handle handle' : Ref} {opened : List Ref} {s s' : Written} {t : Objects}
  {r : Ref} {bytes rest : List UInt8} {limit : Nat}

/-! ## Parts of objects -/

theorem writeString_ok {text : String} (h : writeString text = .ok bytes) :
    Bytes.ofString text = .ok bytes := by
  simp only [writeString] at h
  split at h
  · cases h
    assumption
  · cases h

theorem readName_eq {α : Type} {check : String → Except NameError α} {text : String} {name : α}
    (hwrite : writeString text = .ok bytes) (hcheck : check text = .ok name) :
    readName check ⟨t, bytes ++ rest⟩ = .ok (name, ⟨t, rest⟩) := by
  rw [readName, StateT.bind_of_ok (plain_eq (Bytes.string_ofString (writeString_ok hwrite) rest)),
    hcheck]
  rfl

theorem place_eq (o : HeapObject) (t : Objects) (bytes : List UInt8) :
    place o ⟨t, bytes⟩ = .ok ((t.machine.alloc o).1,
      ⟨⟨(t.machine.alloc o).2, t.read.push (t.machine.alloc o).1⟩, bytes⟩) := rfl

theorem fill_eq (r : Ref) (o : HeapObject) (t : Objects) (bytes : List UInt8) :
    fill r o ⟨t, bytes⟩ = .ok ((), ⟨{ t with machine :=
      { t.machine with heap := t.machine.heap.setIfInBounds r.index o } }, bytes⟩) := rfl

/-! ## Writing a reference -/

/-- What writing a reference comes to. -/
theorem writeReference_cases {levels : Nat}
    (h : writeReference m.heap handle (levels + 1) r s = .ok (bytes, s')) :
    (r = handle ∧ bytes = [5] ∧ s' = s) ∨
      (r ≠ handle ∧ ∃ index, s.lookup r = some index ∧ bytes = 1 :: Bytes.ofNat 4 index ∧ s' = s) ∨
      (r ≠ handle ∧ s.lookup r = none ∧ ∃ o, m.object? r = some o ∧
        writeObject (writeWith (writeReference m.heap handle levels)) o ((r, s.length) :: s) =
          .ok (bytes, s')) := by
  rw [writeReference_succ] at h
  split at h
  · rename_i hr
    cases h
    exact .inl ⟨hr, rfl, rfl⟩
  · rename_i hr
    cases hlookup : s.lookup r with
    | some index =>
      rw [hlookup] at h
      cases h
      exact .inr (.inl ⟨hr, index, rfl, rfl, rfl⟩)
    | none =>
      cases ho : m.heap[r.index]? with
      | none =>
        rw [hlookup, ho] at h
        cases h
      | some o =>
        rw [hlookup, ho] at h
        exact .inr (.inr ⟨hr, rfl, o, ho, h⟩)

/-! ## Reading values -/

/-- Writer and reader of objects; `opened` are the objects whose contents are being read. -/
def pairing (m : Machine) (handle handle' : Ref) (opened : List Ref) (limit : Nat) :
    Pairing Value Value Written Objects where
  limit := limit
  inStep := InStep m handle handle' opened
  reads s t := Value.Renamed (image handle handle' s t)

/-- The bytes of an object are read as an object in its place. -/
def ReadsObject (m : Machine) (handle handle' : Ref) (opened : List Ref) (limit : Nat) (r : Ref)
    (s : Written) (t : Objects) (bytes : List UInt8) (s' : Written) : Prop :=
  ∀ rest, ∃ r' t', readValue handle' (limit + 1) ⟨t, bytes ++ rest⟩ = .ok (.ref r', ⟨t', rest⟩) ∧
    InStep m handle handle' opened s' t' ∧ Grows handle handle' s t s' t' ∧
    image handle handle' s' t' r = some r'

/-- Values are read back if references are written up to this many levels deep. -/
def ReadsValues (m : Machine) (handle handle' : Ref) (levels : Nat) : Prop :=
  ∀ limit opened v, (pairing m handle handle' opened limit).ReadsBack
    (writeWith (writeReference m.heap handle levels) v) (readValue handle' (limit + 1))
    fun s t w => v.Renamed (image handle handle' s t) w

/-- A tag says what follows. -/
theorem readValue_tag {contents : Nat → Reading Objects Value}
    (h : readValue handle' (limit + 1) = plain (Bytes.nat 1) >>= contents) (tag : UInt8)
    (t : Objects) (bytes : List UInt8) :
    readValue handle' (limit + 1) ⟨t, tag :: bytes⟩ = contents tag.toNat ⟨t, bytes⟩ := by
  rw [h, StateT.bind_of_ok (plain_eq (Bytes.nat_byte tag bytes))]

/-- A new string is interned at a place that nothing else is read as. -/
theorem reads_string (hm : m.Writable handle) (h : InStep m handle handle' opened s t)
    (hr : r ≠ handle) (hnew : s.lookup r = none) {text : String}
    (ho : m.object? r = some (.string text)) {value : Value → Writing Written (List UInt8)}
    (hwrite : writeObject value (.string text) ((r, s.length) :: s) = .ok (bytes, s')) :
    ReadsObject m handle handle' opened limit r s t bytes s' := by
  intro rest
  obtain ⟨written, hwritten, hbytes⟩ := StateT.lift_bind_ok.mp hwrite
  cases hbytes
  obtain ⟨hM, hplace, hkeep⟩ := h.machine.intern text
  have hclosed := h.not_opened hnew
  have hfresh : ∀ x, image handle handle' s t x ≠ some (t.machine.intern text).1 := by
    intro x hx
    by_cases hxh : x = handle
    · rw [image, if_pos hxh] at hx
      obtain ⟨c, hc⟩ := hM.continuation
      rw [Option.some.inj hx, hplace] at hc
      cases hc
    · obtain ⟨o, o', ho₁, ho₂, hstate⟩ := h.objects x _ hxh hx
      obtain rfl : .string text = o' := Option.some.inj (hplace.symm.trans (hkeep _ _ ho₂))
      split at hstate
      · cases hstate
      · -- another string with the same text would be the same object
        rw [hstate.of_string] at ho₁
        obtain rfl := hm.strings x r text ho₁ ho
        rw [image, if_neg hxh, hnew] at hx
        cases hx
  have hstream : r = Machine.printStream → (t.machine.intern text).1 = Machine.printStream := by
    intro heq
    rw [(hm.stream r).mpr heq] at ho
    cases ho
  obtain ⟨hstep, hgrows, hself⟩ := h.push hr hnew ho hM hkeep hplace hfresh hstream
    (fun _ _ => Iff.rfl) (by rw [if_neg hclosed]; exact fun _ => rfl)
  refine ⟨_, _, ?_, hstep, hgrows, hself⟩
  rw [List.cons_append, readValue_tag rfl]
  show readString _ = _
  rw [readString, StateT.bind_of_ok
    (plain_eq (Bytes.string_ofString (writeString_ok hwritten) rest))]
  rfl

/-- The print stream is found again. -/
theorem reads_stream (hm : m.Writable handle) (h : InStep m handle handle' opened s t)
    (hr : r ≠ handle) (hnew : s.lookup r = none) (ho : m.object? r = some .printStream)
    {value : Value → Writing Written (List UInt8)}
    (hwrite : writeObject value .printStream ((r, s.length) :: s) = .ok (bytes, s')) :
    ReadsObject m handle handle' opened limit r s t bytes s' := by
  intro rest
  cases hwrite
  have hclosed := h.not_opened hnew
  have hfresh : ∀ x, image handle handle' s t x ≠ some Machine.printStream := by
    intro x hx
    by_cases hxh : x = handle
    · rw [image, if_pos hxh] at hx
      obtain ⟨c, hc⟩ := h.machine.continuation
      rw [Option.some.inj hx, h.machine.stream] at hc
      cases hc
    · obtain ⟨o, o', ho₁, ho₂, hstate⟩ := h.objects x _ hxh hx
      obtain rfl : .printStream = o' := Option.some.inj (h.machine.stream.symm.trans ho₂)
      split at hstate
      · cases hstate
      · rw [hstate.of_printStream] at ho₁
        obtain rfl := ((hm.stream x).mp ho₁).trans ((hm.stream r).mp ho).symm
        rw [image, if_neg hxh, hnew] at hx
        cases hx
  obtain ⟨hstep, hgrows, hself⟩ := h.push hr hnew ho h.machine (fun _ _ hy => hy) h.machine.stream
    hfresh (fun _ => rfl) (fun _ _ => Iff.rfl) (by rw [if_neg hclosed]; exact fun _ => rfl)
  refine ⟨_, _, ?_, hstep, hgrows, hself⟩
  rw [List.cons_append, readValue_tag rfl]
  rfl

/-- A new container is placed, and is open until it is filled. -/
theorem InStep.place (hm : m.Writable handle) (h : InStep m handle handle' opened s t)
    (hr : r ≠ handle) (hnew : s.lookup r = none) {o : HeapObject} (ho : m.object? r = some o)
    (hcontainer : o.IsContainer) (o' : HeapObject) (hcontainer' : o'.IsContainer) :
    InStep m handle handle' (r :: opened) ((r, s.length) :: s)
        ⟨(t.machine.alloc o').2, t.read.push (t.machine.alloc o').1⟩ ∧
      Grows handle handle' s t ((r, s.length) :: s)
        ⟨(t.machine.alloc o').2, t.read.push (t.machine.alloc o').1⟩ ∧
      image handle handle' ((r, s.length) :: s)
        ⟨(t.machine.alloc o').2, t.read.push (t.machine.alloc o').1⟩ r =
          some (t.machine.alloc o').1 := by
  have hfresh : ∀ x, image handle handle' s t x ≠ some (t.machine.alloc o').1 := by
    intro x hx
    -- what was read before is on the heap, so it is not the place after its end
    have hlt : (t.machine.alloc o').1.index < t.machine.heap.size := by
      by_cases hxh : x = handle
      · rw [image, if_pos hxh] at hx
        obtain ⟨c, hc⟩ := h.machine.continuation
        exact Option.some.inj hx ▸ Machine.object?_lt hc
      · obtain ⟨_, _, -, ho₂, -⟩ := h.objects x _ hxh hx
        exact Machine.object?_lt ho₂
    exact Nat.lt_irrefl _ hlt
  have hstream : r = Machine.printStream → (t.machine.alloc o').1 = Machine.printStream := by
    intro heq
    rw [(hm.stream r).mpr heq] at ho
    cases ho
    cases hcontainer
  refine h.push hr hnew ho (h.machine.alloc o') (fun _ _ => Machine.object?_alloc_of_some)
    (Machine.object?_alloc_self _ _) hfresh hstream (fun x hx => ?_) ?_
  · simp [hx]
  · rw [if_pos (List.mem_cons_self ..)]
    exact hcontainer'

/-- Each field is its name and its value. -/
theorem readsBack_fields {levels : Nat} (hvalues : ReadsValues m handle handle' levels)
    (fields : FieldValues) :
    (pairing m handle handle' opened limit).ReadsBack
      (Snapshot.writeEach (fun field => do
        return (← writeString field.1.text) ++
          (← writeWith (writeReference m.heap handle levels) field.2)) fields)
      (Bytes.items fields.length do
        let name ← readName MemberName.ofString
        return (name, ← readValue handle' (limit + 1)))
      fun s t read => List.Forall₂ (fun f g => g.1 = f.1 ∧ f.2.Renamed (image handle handle' s t) g.2)
        fields read := by
  refine Snapshot.readsBack_each
    (Q := fun (f : MemberName × Value) s t (g : MemberName × Value) =>
      g.1 = f.1 ∧ f.2.Renamed (image handle handle' s t) g.2) fields ?_ ?_
  · rintro f - s₁ t₁ bytes s₂ rest hstep hf hlimit
    obtain ⟨text, htext, hf⟩ := StateT.lift_bind_ok.mp hf
    obtain ⟨value, _, hvalue, hends⟩ := StateT.bind_ok.mp hf
    cases hends
    rw [List.length_append] at hlimit
    obtain ⟨w, t₂, hread, hstep₂, hkept, hw⟩ := hvalues limit opened f.2 s₁ t₁ value s₂ rest hstep
      hvalue (Nat.le_trans (Nat.le_add_left _ _) hlimit)
    refine ⟨(f.1, w), t₂, ?_, hstep₂, hkept, rfl, hw⟩
    rw [List.append_assoc, StateT.bind_of_ok (readName_eq htext (MemberName.ofString_text f.1)),
      StateT.bind_of_ok hread]
    rfl
  · exact fun f s t s' t' g hkept hg => ⟨hg.1, hkept _ _ hg.2⟩

/-- An instance is placed, then its fields are read, then it is filled. -/
theorem reads_instance (hm : m.Writable handle) {levels : Nat}
    (hvalues : ReadsValues m handle handle' levels) (h : InStep m handle handle' opened s t)
    (hr : r ≠ handle) (hnew : s.lookup r = none) {owner : ClassName} {fields : FieldValues}
    (ho : m.object? r = some (.instance owner fields))
    (hwrite : writeObject (writeWith (writeReference m.heap handle levels)) (.instance owner fields)
      ((r, s.length) :: s) = .ok (bytes, s')) (hlimit : bytes.length ≤ limit) :
    ReadsObject m handle handle' opened limit r s t bytes s' := by
  intro rest
  obtain ⟨name, hname, hwrite⟩ := StateT.lift_bind_ok.mp hwrite
  split at hwrite
  · cases hwrite
  rename_i hcount
  have hfits : fields.length < 256 ^ 2 := Nat.not_le.mp hcount
  obtain ⟨written, _, hwritten, hbytes⟩ := StateT.bind_ok.mp hwrite
  cases hbytes
  simp only [List.length_append, List.length_cons] at hlimit
  obtain ⟨limit, rfl⟩ : ∃ k, limit = k + 1 := ⟨limit - 1, by omega⟩
  obtain ⟨hstep₁, hgrows₁, hself⟩ := h.place hm hr hnew ho trivial
    (.instance owner []) trivial
  generalize hplaced : (t.machine.alloc (.instance owner [])).1 = r' at hstep₁ hgrows₁ hself
  obtain ⟨read, t₂, hreads, hstep₂, hkept, hread⟩ := readsBack_fields hvalues fields _ _ written s'
    rest hstep₁ hwritten (by show written.length ≤ limit; omega)
  have hordered : FieldValues.Ordered read :=
    (hm.ordered r owner fields ho).of_names (hread.imp fun _ _ hfg => hfg.1)
  obtain ⟨_, hself₂, heq⟩ := hkept (.ref r) (.ref r') ⟨r', hself, rfl⟩
  cases heq
  have hfilled := hstep₂.fill (.instance owner read) (h.not_opened hnew) hr hself₂ ho
    ⟨read, rfl, hread⟩
  refine ⟨r', _, ?_, hfilled, ?_, hself₂⟩
  · rw [List.cons_append, List.cons_append, List.cons_append, readValue_tag rfl]
    show readInstance (readValue handle' (limit + 1)) _ = _
    rw [readInstance, List.append_assoc, List.append_assoc,
      StateT.bind_of_ok (readName_eq hname (ClassName.ofString_text owner)),
      StateT.bind_of_ok (place_eq _ _ _), StateT.bind_of_ok (plain_eq (Bytes.nat_ofNat hfits _)),
      hplaced, StateT.bind_of_ok hreads, FieldValues.foldl_set [] hordered,
      StateT.bind_of_ok (fill_eq _ _ _ _)]
    rfl
  · intro x x' hx
    obtain ⟨_, hx', heq⟩ := hkept (.ref x) (.ref x') ⟨x', hgrows₁ x x' hx, rfl⟩
    cases heq
    exact hx'

/-- An array is placed, then its elements are read, then it is filled. -/
theorem reads_array (hm : m.Writable handle) {levels : Nat}
    (hvalues : ReadsValues m handle handle' levels) (h : InStep m handle handle' opened s t)
    (hr : r ≠ handle) (hnew : s.lookup r = none) {type : RefType} {values : Array Value}
    (ho : m.object? r = some (.array type values))
    (hwrite : writeObject (writeWith (writeReference m.heap handle levels)) (.array type values)
      ((r, s.length) :: s) = .ok (bytes, s')) (hlimit : bytes.length ≤ limit) :
    ReadsObject m handle handle' opened limit r s t bytes s' := by
  intro rest
  obtain ⟨descriptor, hdescriptor, hwrite⟩ := StateT.lift_bind_ok.mp hwrite
  split at hwrite
  · cases hwrite
  rename_i hcount
  have hfits : values.toList.length < 256 ^ 4 := Nat.not_le.mp hcount
  obtain ⟨written, _, hwritten, hbytes⟩ := StateT.bind_ok.mp hwrite
  cases hbytes
  simp only [List.length_append, List.length_cons] at hlimit
  obtain ⟨limit, rfl⟩ : ∃ k, limit = k + 1 := ⟨limit - 1, by omega⟩
  obtain ⟨hstep₁, hgrows₁, hself⟩ := h.place hm hr hnew ho trivial (.array type #[]) trivial
  generalize hplaced : (t.machine.alloc (.array type #[])).1 = r' at hstep₁ hgrows₁ hself
  obtain ⟨read, t₂, hreads, hstep₂, hkept, hread⟩ := Snapshot.readsBack_each
    (p := pairing m handle handle' (r :: opened) limit)
    (Q := fun v s t w => v.Renamed (image handle handle' s t) w) values.toList
    (fun v _ => hvalues limit (r :: opened) v) (fun _ _ _ _ _ _ hkept hw => hkept _ _ hw)
    _ _ written s' rest hstep₁ hwritten (by show written.length ≤ limit; omega)
  obtain ⟨_, hself₂, heq⟩ := hkept (.ref r) (.ref r') ⟨r', hself, rfl⟩
  cases heq
  have hfilled := hstep₂.fill (.array type read.toArray) (h.not_opened hnew) hr hself₂ ho
    ⟨read.toArray, rfl, by simpa using hread⟩
  refine ⟨r', _, ?_, hfilled, ?_, hself₂⟩
  · rw [List.cons_append, List.cons_append, List.cons_append, readValue_tag rfl]
    show readArray (readValue handle' (limit + 1)) _ = _
    rw [readArray, List.append_assoc, List.append_assoc, StateT.bind_of_ok
      (plain_eq (Bytes.string_ofString (writeString_ok hdescriptor) _)), RefType.parse_render]
    simp only
    rw [StateT.bind_of_ok (place_eq _ _ _), ← Array.length_toList,
      StateT.bind_of_ok (plain_eq (Bytes.nat_ofNat hfits _)), hplaced, StateT.bind_of_ok hreads,
      StateT.bind_of_ok (fill_eq _ _ _ _)]
    rfl
  · intro x x' hx
    obtain ⟨_, hx', heq⟩ := hkept (.ref x) (.ref x') ⟨x', hgrows₁ x x' hx, rfl⟩
    cases heq
    exact hx'

/-! ## Values -/

/-- A reference is read back. -/
theorem readsBack_reference (hm : m.Writable handle) {levels : Nat}
    (hvalues : ReadsValues m handle handle' levels) (opened : List Ref) (limit : Nat) (r : Ref) :
    (pairing m handle handle' opened limit).ReadsBack
      (writeReference m.heap handle (levels + 1) r) (readValue handle' (limit + 1))
      fun s t w => (Value.ref r).Renamed (image handle handle' s t) w := by
  intro s t bytes s' rest h hwrite hlimit
  -- an object that is new on both sides
  have hobject : ReadsObject m handle handle' opened limit r s t bytes s' →
      ∃ w t', readValue handle' (limit + 1) ⟨t, bytes ++ rest⟩ = .ok (w, ⟨t', rest⟩) ∧
        (pairing m handle handle' opened limit).inStep s' t' ∧
        (pairing m handle handle' opened limit).Keeps s t s' t' ∧
        (Value.ref r).Renamed (image handle handle' s' t') w := by
    intro hreads
    obtain ⟨r', t', hread, hstep, hgrows, hself⟩ := hreads rest
    exact ⟨.ref r', t', hread, hstep, fun _ _ hvw => hvw.mono hgrows, r', hself, rfl⟩
  rcases writeReference_cases hwrite with ⟨hr, rfl, rfl⟩ | ⟨hr, index, hindex, rfl, rfl⟩ |
    ⟨hr, hnew, o, ho, hwrite⟩
  · refine ⟨.ref handle', t, ?_, h, fun _ _ hvw => hvw, handle', ?_, rfl⟩
    · rw [List.cons_append, readValue_tag rfl]
      rfl
    · rw [image, if_pos hr]
  · obtain ⟨r', hread, himage⟩ := h.image_of_lookup hr hindex
    have hfits : index < 256 ^ 4 :=
      Nat.lt_of_lt_of_le (h.index_lt hindex) (Nat.le_trans h.length_le hm.size)
    refine ⟨.ref r', t, ?_, h, fun _ _ hvw => hvw, r', himage, rfl⟩
    rw [List.cons_append, readValue_tag rfl]
    show readBack _ = _
    rw [readBack, StateT.bind_of_ok (plain_eq (Bytes.nat_ofNat hfits rest))]
    simp only [bind, StateT.bind, get, getThe, MonadStateOf.get, StateT.get, pure, Except.pure,
      Except.bind, hread]
    rfl
  · cases o with
    | string text => exact hobject (reads_string hm h hr hnew ho hwrite)
    | «instance» owner fields => exact hobject (reads_instance hm hvalues h hr hnew ho hwrite hlimit)
    | array type values => exact hobject (reads_array hm hvalues h hr hnew ho hwrite hlimit)
    | printStream => exact hobject (reads_stream hm h hr hnew ho hwrite)
    | continuation _ | methodState _ | data _ | lockState _ => cases hwrite

/-- A value that is no reference is read back bit by bit, and neither side sees an object. -/
theorem readValue_plain (reference : Ref → Writing Written (List UInt8)) {v : Value}
    (hv : v.ref? = none) {s s' : Written} {bytes : List UInt8}
    (hwrite : writeWith reference v s = .ok (bytes, s')) :
    s' = s ∧ ∃ w, (∀ image, v.Renamed image w) ∧ ∀ limit t rest,
      readValue handle' (limit + 1) ⟨t, bytes ++ rest⟩ = .ok (w, ⟨t, rest⟩) := by
  cases v with
  | ref r => cases hv
  | null | top =>
    cases hwrite
    refine ⟨rfl, .null, fun _ => rfl, fun limit t rest => ?_⟩
    rw [List.cons_append, readValue_tag rfl]
    rfl
  | int n =>
    cases hwrite
    refine ⟨rfl, .int n, fun _ => rfl, fun limit t rest => ?_⟩
    rw [List.cons_append, readValue_tag rfl]
    exact StateT.bind_of_ok (plain_eq (Bytes.int32_ofInt32 n rest))
  | long n =>
    cases hwrite
    refine ⟨rfl, .long n, fun _ => rfl, fun limit t rest => ?_⟩
    rw [List.cons_append, readValue_tag rfl]
    exact StateT.bind_of_ok (plain_eq (Bytes.int64_ofInt64 n rest))
  | float bits =>
    cases hwrite
    have hfits : bits.toNat < 256 ^ 4 := bits.toNat_lt
    refine ⟨rfl, .float bits, fun _ => rfl, fun limit t rest => ?_⟩
    rw [List.cons_append, readValue_tag rfl]
    refine (StateT.bind_of_ok (plain_eq (Bytes.nat_ofNat hfits rest))).trans ?_
    rw [UInt32.ofNat_toNat]
    rfl
  | double bits =>
    cases hwrite
    have hfits : bits.toNat < 256 ^ 8 := bits.toNat_lt
    refine ⟨rfl, .double bits, fun _ => rfl, fun limit t rest => ?_⟩
    rw [List.cons_append, readValue_tag rfl]
    refine (StateT.bind_of_ok (plain_eq (Bytes.nat_ofNat hfits rest))).trans ?_
    rw [UInt64.ofNat_toNat]
    rfl

theorem readsBack_plain (reference : Ref → Writing Written (List UInt8)) {v : Value}
    (hv : v.ref? = none) :
    (pairing m handle handle' opened limit).ReadsBack (writeWith reference v)
      (readValue handle' (limit + 1)) fun s t w => v.Renamed (image handle handle' s t) w := by
  intro s t bytes s' rest h hwrite _
  obtain ⟨rfl, w, hw, hread⟩ := readValue_plain reference hv hwrite
  exact ⟨w, t, hread limit t rest, h, fun _ _ hvw => hvw, hw _⟩

/-- **Values.** Whatever is written is read back as its image. -/
theorem readsBack_value (hm : m.Writable handle) (handle' : Ref) (levels : Nat) :
    ReadsValues m handle handle' levels := by
  induction levels with
  | zero =>
    intro limit opened v
    cases v with
    | ref r =>
      intro s t bytes s' rest _ hwrite
      cases hwrite
    | _ => exact readsBack_plain _ rfl
  | succ levels ih =>
    intro limit opened v
    cases v with
    | ref r => exact readsBack_reference hm ih opened limit r
    | _ => exact readsBack_plain _ rfl

/-- Reading objects undoes writing them. -/
theorem pairing_inverts (hm : m.Writable handle) (handle' : Ref) (limit : Nat) :
    (pairing m handle handle' [] limit).Inverts (writer m handle) (reader handle' limit) where
  object v := readsBack_value hm handle' (m.heap.size + 1) limit [] v
  null s t bytes s' rest h hwrite hlimit := by
    obtain ⟨w, t', hread, hstep, hkept, -⟩ := readsBack_plain (v := .null)
      (fun _ => pure []) rfl s t bytes s' rest h hwrite hlimit
    exact ⟨w, t', hread, hstep, hkept, trivial⟩

end ObjectFormat

end Resumption
