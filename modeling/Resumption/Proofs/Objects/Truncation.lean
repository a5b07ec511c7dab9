import Resumption.Proofs.Objects.Graphs
import Resumption.Proofs.Snapshot.Prefixes

/-!
# Truncated snapshots

Whatever a machine can write as a snapshot, any machine can read, and of no strict part of it does any
machine read anything: it finds out that the part is truncated.

* The reader of objects takes byte after byte (`truncates_value`).
* Whatever is written is read by any machine (`readsBack_counted`). All that this needs is that both
  sides have counted the same objects (`Counted`); what comes back is another matter.
* **`Machine.readSnapshot_truncated`** puts these together.
-/

namespace Resumption.ObjectFormat

open Snapshot (Pairing plain_eq)

variable {handle handle' : Ref}

/-! ## Byte after byte -/

theorem truncates_remember (r : Ref) : Truncates (remember r) (remember r) :=
  .aside (f := fun t => .ok ((), { t with read := t.read.push r })) fun _ _ => rfl

theorem truncates_place (o : HeapObject) : Truncates (place o) (place o) :=
  .aside (f := fun t => .ok ((t.machine.alloc o).1,
    ⟨(t.machine.alloc o).2, t.read.push (t.machine.alloc o).1⟩)) fun _ _ => rfl

theorem truncates_fill (r : Ref) (o : HeapObject) : Truncates (fill r o) (fill r o) :=
  .aside (f := fun t => .ok ((), { t with machine :=
    { t.machine with heap := t.machine.heap.setIfInBounds r.index o } })) fun _ _ => rfl

theorem truncates_string : Truncates readString readString := by
  refine Truncates.string.bind fun s => ?_
  refine Truncates.bind (.aside (f := fun t => .ok ((t.machine.intern s).1,
    { t with machine := (t.machine.intern s).2 })) fun _ _ => rfl) fun r => ?_
  exact (truncates_remember r).bind fun _ => .pure _

theorem truncates_name {α : Type} (check : String → Except NameError α) :
    Truncates (readName check) (readName check) := by
  refine Truncates.string.bind fun s => ?_
  split
  · exact .pure _
  · exact .throw _ _

theorem truncates_back : Truncates readBack readBack := by
  refine (Truncates.nat 4).bind fun index => ?_
  refine .aside (f := fun t => (t.read[index]?).elim
    (.error (.object (.unknownReference index))) fun r => .ok (.ref r, t)) fun t bytes => ?_
  simp only [get, getThe, MonadStateOf.get, StateT.get, bind, StateT.bind, Except.bind, pure,
    Except.pure]
  cases t.read[index]? <;> rfl

variable {brief whole : Reading Objects Value}

theorem truncates_instance (h : Truncates brief whole) :
    Truncates (readInstance brief) (readInstance whole) := by
  refine (truncates_name _).bind fun owner => ?_
  refine (truncates_place _).bind fun r => ?_
  refine (Truncates.nat 2).bind fun count => ?_
  refine Truncates.bind (.items ?_ count) fun fields => ?_
  · exact (truncates_name _).bind fun name => h.bind fun v => .pure _
  · exact (truncates_fill _ _).bind fun _ => .pure _

theorem truncates_array (h : Truncates brief whole) :
    Truncates (readArray brief) (readArray whole) := by
  refine Truncates.string.bind fun descriptor => ?_
  split
  · exact .throw _ _
  refine (truncates_place _).bind fun r => ?_
  refine (Truncates.nat 4).bind fun count => ?_
  exact (h.items count).bind fun values => (truncates_fill _ _).bind fun _ => .pure _

/-- **Values.** A reader that expects fewer bytes gives up earlier, if at all. -/
theorem truncates_value (handle : Ref) {fewer levels : Nat} (hle : fewer ≤ levels) :
    Truncates (readValue handle fewer) (readValue handle levels) := by
  -- with fewer levels a read gives up earlier, and until then it does the same
  induction levels generalizing fewer with
  | zero => exact .throw _ _
  | succ levels ih =>
    have hlevel : ∀ {fewer}, fewer ≤ levels →
        Truncates (readValue handle (fewer + 1)) (readValue handle (levels + 1)) := by
      intro fewer hle
      refine (Truncates.nat 1).bind fun tag => ?_
      -- one case for each tag, and one for all other bytes
      split
      · exact .pure _
      · exact truncates_back
      · exact truncates_string
      · exact truncates_instance (ih hle)
      · exact truncates_array (ih hle)
      · exact .pure _
      · exact (truncates_remember _).bind fun _ => .pure _
      · exact Truncates.int32.bind fun _ => .pure _
      · exact Truncates.int64.bind fun _ => .pure _
      · exact (Truncates.nat 4).bind fun _ => .pure _
      · exact (Truncates.nat 8).bind fun _ => .pure _
      · exact .throw _ _
    cases fewer with
    | zero => exact (hlevel (Nat.le_refl levels)).give_up
    | succ fewer => exact hlevel (Nat.le_of_succ_le_succ hle)

/-! ## Whatever is written is read -/

/-- Writer and reader have counted the same objects. -/
structure Counted (s : Written) (t : Objects) : Prop where
  /-- as many objects are read as are written -/
  count : t.read.size = s.length
  /-- objects have their numbers -/
  entries : ∀ e ∈ s, e.2 < s.length

/-- Writer and reader that keep count; what comes back does not matter. -/
def counting (limit : Nat) : Pairing Value Value Written Objects where
  limit := limit
  inStep := Counted
  reads _ _ _ _ := True

/-- Whatever is written is read, up to a limit. -/
def ReadsOn {β : Type} (limit : Nat) (write : Writing Written (List UInt8))
    (read : Reading Objects β) : Prop :=
  ∀ s t bytes s' rest, Counted s t → write s = .ok (bytes, s') → bytes.length ≤ limit →
    ∃ y t', read ⟨t, bytes ++ rest⟩ = .ok (y, ⟨t', rest⟩) ∧ Counted s' t'

variable {m : Machine} {s s' : Written} {t : Objects} {bytes : List UInt8} {limit : Nat}

theorem ReadsOn.readsBack {β : Type} {write : Writing Written (List UInt8)} {read : Reading Objects β}
    (h : ReadsOn limit write read) : (counting limit).ReadsBack write read fun _ _ _ => True := by
  intro s t bytes s' rest hcounted hwrite hlimit
  obtain ⟨y, t', hread, hcounted'⟩ := h s t bytes s' rest hcounted hwrite hlimit
  exact ⟨y, t', hread, hcounted', fun _ _ h => h, trivial⟩

theorem ReadsOn.each {α β : Type} {write : α → Writing Written (List UInt8)} {read : Reading Objects β}
    (h : ∀ x, ReadsOn limit (write x) read) (xs : List α) :
    ReadsOn limit (Snapshot.writeEach write xs) (Bytes.items xs.length read) := by
  intro s t bytes s' rest hcounted hwrite hlimit
  obtain ⟨ys, t', hread, hcounted', -, -⟩ := Snapshot.readsBack_each xs
    (fun x _ => (h x).readsBack) (fun _ _ _ _ _ _ _ _ => trivial) s t bytes s' rest hcounted hwrite
    hlimit
  exact ⟨ys, t', hread, hcounted'⟩

/-- The next index is given on both sides. -/
theorem Counted.push (h : Counted s t) (r r' : Ref) (machine : Machine) :
    Counted ((r, s.length) :: s) ⟨machine, t.read.push r'⟩ := by
  refine ⟨by simp [h.count], fun e he => ?_⟩
  rw [List.length_cons]
  rcases List.mem_cons.mp he with rfl | he
  · exact Nat.lt_succ_self _
  · exact Nat.lt_succ_of_lt (h.entries e he)

theorem Counted.fill (h : Counted s t) (r : Ref) (o : HeapObject) (bytes : List UInt8) :
    ∃ t', fill r o ⟨t, bytes⟩ = .ok ((), ⟨t', bytes⟩) ∧ Counted s t' :=
  ⟨_, fill_eq r o t bytes, h.count, h.entries⟩

/-- An index that was written is one of an object that was read, even if not all of it was written. -/
theorem Counted.back (h : Counted s t) {r : Ref} {index : Nat} (hindex : s.lookup r = some index)
    (rest : List UInt8) :
    ∃ v, readBack ⟨t, Bytes.ofNat 4 index ++ rest⟩ = .ok (v, ⟨t, rest⟩) := by
  have hlt : index % 256 ^ 4 < t.read.size := by
    rw [h.count]
    exact Nat.lt_of_le_of_lt (Nat.mod_le _ _) (h.entries (r, index) (Run.lookup_mem hindex))
  have hnat : Bytes.nat 4 (Bytes.ofNat 4 index ++ rest) = .ok (index % 256 ^ 4, rest) := by
    simp only [Bytes.nat, bind, StateT.bind, Except.bind,
      Bytes.take_append (Bytes.length_ofNat 4 index), Bytes.toNat_ofNat]
    rfl
  refine ⟨.ref t.read[index % 256 ^ 4], ?_⟩
  rw [readBack, StateT.bind_of_ok (plain_eq hnat)]
  simp only [bind, StateT.bind, get, getThe, MonadStateOf.get, StateT.get, pure, Except.pure,
    Except.bind, Array.getElem?_eq_getElem hlt]
  rfl

/-- A value that is no reference. -/
theorem readsOn_plain (reference : Ref → Writing Written (List UInt8)) {v : Value}
    (hv : v.ref? = none) : ReadsOn limit (writeWith reference v) (readValue handle' (limit + 1)) := by
  intro s t bytes s' rest h hwrite _
  obtain ⟨rfl, w, -, hread⟩ := readValue_plain reference hv hwrite
  exact ⟨w, t, hread limit t rest, h⟩

/-- The bytes of a new object are read. -/
def ReadsNew (handle' : Ref) (limit : Nat) (t : Objects) (bytes : List UInt8) (s' : Written) : Prop :=
  ∀ rest, ∃ v t', readValue handle' (limit + 1) ⟨t, bytes ++ rest⟩ = .ok (v, ⟨t', rest⟩) ∧
    Counted s' t'

variable {value : Value → Writing Written (List UInt8)} {r : Ref}

theorem readsNew_string (h : Counted s t) {text : String}
    (hwrite : writeObject value (.string text) ((r, s.length) :: s) = .ok (bytes, s')) :
    ReadsNew handle' limit t bytes s' := by
  intro rest
  obtain ⟨written, hwritten, hbytes⟩ := StateT.lift_bind_ok.mp hwrite
  cases hbytes
  refine ⟨.ref (t.machine.intern text).1, _, ?_,
    h.push r (t.machine.intern text).1 (t.machine.intern text).2⟩
  rw [List.cons_append, readValue_tag rfl]
  show readString _ = _
  rw [readString, StateT.bind_of_ok
    (plain_eq (Bytes.string_ofString (writeString_ok hwritten) rest))]
  rfl

/-- Each field is its name and its value. -/
theorem readsOn_fields
    (hvalues : ∀ v, ReadsOn limit (value v) (readValue handle' (limit + 1))) (fields : FieldValues) :
    ReadsOn limit (Snapshot.writeEach (fun field => do
        return (← writeString field.1.text) ++ (← value field.2)) fields)
      (Bytes.items fields.length do
        let name ← readName MemberName.ofString
        return (name, ← readValue handle' (limit + 1))) := by
  refine ReadsOn.each (fun f s t bytes s' rest h hf hlimit => ?_) fields
  obtain ⟨text, htext, hf⟩ := StateT.lift_bind_ok.mp hf
  obtain ⟨written, _, hwritten, hends⟩ := StateT.bind_ok.mp hf
  cases hends
  rw [List.length_append] at hlimit
  obtain ⟨v, t', hread, h'⟩ := hvalues f.2 s t written s' rest h hwritten
    (Nat.le_trans (Nat.le_add_left _ _) hlimit)
  refine ⟨(f.1, v), t', ?_, h'⟩
  rw [List.append_assoc, StateT.bind_of_ok (readName_eq htext (MemberName.ofString_text f.1)),
    StateT.bind_of_ok hread]
  rfl

theorem readsNew_instance
    (hvalues : ∀ limit v, ReadsOn limit (value v) (readValue handle' (limit + 1)))
    (h : Counted s t) {owner : ClassName} {fields : FieldValues}
    (hwrite : writeObject value (.instance owner fields) ((r, s.length) :: s) = .ok (bytes, s'))
    (hlimit : bytes.length ≤ limit) : ReadsNew handle' limit t bytes s' := by
  intro rest
  obtain ⟨name, hname, hwrite⟩ := StateT.lift_bind_ok.mp hwrite
  split at hwrite
  · cases hwrite
  rename_i hcount
  have hfits : fields.length < 256 ^ 2 := Nat.not_le.mp hcount
  obtain ⟨written, _, hwritten, hbytes⟩ := StateT.bind_ok.mp hwrite
  cases hbytes
  simp only [List.length_append, List.length_cons] at hlimit
  obtain ⟨limit, rfl⟩ : ∃ k, limit = k + 1 := ⟨limit - 1, by omega⟩
  -- the contents are read one level further in, with the object placed
  generalize hplaced : t.machine.alloc (.instance owner []) = placed
  obtain ⟨read, t', hreads, h'⟩ := readsOn_fields (hvalues limit) fields _ _ written s' rest
    (h.push r placed.1 placed.2) hwritten (by omega)
  obtain ⟨t'', hfill, h''⟩ := h'.fill placed.1
    (.instance owner (read.foldl (fun fields field => fields.set field.1 field.2) [])) rest
  refine ⟨.ref placed.1, t'', ?_, h''⟩
  rw [List.cons_append, List.cons_append, List.cons_append, readValue_tag rfl]
  show readInstance (readValue handle' (limit + 1)) _ = _
  rw [readInstance, List.append_assoc, List.append_assoc,
    StateT.bind_of_ok (readName_eq hname (ClassName.ofString_text owner)),
    StateT.bind_of_ok (place_eq _ _ _), StateT.bind_of_ok (plain_eq (Bytes.nat_ofNat hfits _)),
    hplaced, StateT.bind_of_ok hreads, StateT.bind_of_ok hfill]
  rfl

theorem readsNew_array
    (hvalues : ∀ limit v, ReadsOn limit (value v) (readValue handle' (limit + 1)))
    (h : Counted s t) {type : RefType} {values : Array Value}
    (hwrite : writeObject value (.array type values) ((r, s.length) :: s) = .ok (bytes, s'))
    (hlimit : bytes.length ≤ limit) : ReadsNew handle' limit t bytes s' := by
  intro rest
  obtain ⟨descriptor, hdescriptor, hwrite⟩ := StateT.lift_bind_ok.mp hwrite
  split at hwrite
  · cases hwrite
  rename_i hcount
  have hfits : values.toList.length < 256 ^ 4 := Nat.not_le.mp hcount
  obtain ⟨written, _, hwritten, hbytes⟩ := StateT.bind_ok.mp hwrite
  cases hbytes
  simp only [List.length_append, List.length_cons] at hlimit
  obtain ⟨limit, rfl⟩ : ∃ k, limit = k + 1 := ⟨limit - 1, by omega⟩
  generalize hplaced : t.machine.alloc (.array type #[]) = placed
  obtain ⟨read, t', hreads, h'⟩ := ReadsOn.each (hvalues limit) values.toList _ _ written s' rest
    (h.push r placed.1 placed.2) hwritten (by omega)
  obtain ⟨t'', hfill, h''⟩ := h'.fill placed.1 (.array type read.toArray) rest
  refine ⟨.ref placed.1, t'', ?_, h''⟩
  rw [List.cons_append, List.cons_append, List.cons_append, readValue_tag rfl]
  show readArray (readValue handle' (limit + 1)) _ = _
  rw [readArray, List.append_assoc, List.append_assoc, StateT.bind_of_ok
    (plain_eq (Bytes.string_ofString (writeString_ok hdescriptor) _)), RefType.parse_render]
  simp only
  rw [StateT.bind_of_ok (place_eq _ _ _), ← Array.length_toList,
    StateT.bind_of_ok (plain_eq (Bytes.nat_ofNat hfits _)), hplaced, StateT.bind_of_ok hreads,
    StateT.bind_of_ok hfill]
  rfl

/-- **Values.** Whatever a machine can write, any machine can read. -/
theorem readsOn_value (m : Machine) (handle handle' : Ref) (levels limit : Nat) (v : Value) :
    ReadsOn limit (writeWith (writeReference m.heap handle levels) v)
      (readValue handle' (limit + 1)) := by
  -- by induction on the levels of nesting that writing may go down; reading is given one level more
  -- than it can need
  induction levels generalizing limit v with
  | zero =>
    cases v with
    | ref r =>
      intro s t bytes s' rest _ hwrite
      cases hwrite
    | _ => exact readsOn_plain _ rfl
  | succ levels ih =>
    cases v with
    | ref r =>
      intro s t bytes s' rest h hwrite hlimit
      rcases writeReference_cases hwrite with ⟨-, rfl, rfl⟩ | ⟨-, index, hindex, rfl, rfl⟩ |
        ⟨-, -, o, -, hwrite⟩
      · refine ⟨.ref handle', t, ?_, h⟩
        rw [List.cons_append, readValue_tag rfl]
        rfl
      · obtain ⟨v, hback⟩ := h.back hindex rest
        refine ⟨v, t, ?_, h⟩
        rw [List.cons_append, readValue_tag rfl]
        exact hback
      · cases o with
        | string text => exact readsNew_string h hwrite rest
        | «instance» owner fields => exact readsNew_instance ih h hwrite hlimit rest
        | array type values => exact readsNew_array ih h hwrite hlimit rest
        | printStream =>
          cases hwrite
          refine ⟨.ref Machine.printStream, _, ?_, h.push r Machine.printStream t.machine⟩
          rw [List.cons_append, readValue_tag rfl]
          rfl
        | continuation _ | methodState _ | data _ | lockState _ => cases hwrite
    | _ => exact readsOn_plain _ rfl

theorem counting_inverts (m : Machine) (handle handle' : Ref) (limit : Nat) :
    (counting limit).Inverts (writer m handle) (reader handle' limit) where
  object v := (readsOn_value m handle handle' (m.heap.size + 1) limit v).readsBack
  null := (readsOn_value m handle handle' 0 limit .null).readsBack

end Resumption.ObjectFormat

namespace Resumption

open ObjectFormat

/-- **Truncation is found out.** What a machine can write as a snapshot, any machine reads to its last
byte. Of any part from the front that is not all of it, the empty one included, no machine reads a
snapshot, and the reason given is always that the part is truncated. -/
theorem Machine.readSnapshot_truncated {m : Machine} {handle : Ref} {snapshot : Snapshot Value}
    {bytes : List UInt8} (hrange : snapshot.InRange)
    (hwrite : m.writeSnapshot handle snapshot = .ok bytes) (m' : Machine) (handle' : Ref) :
    (∃ snapshot' after, m'.readSnapshot handle' bytes = .ok (snapshot', after, [])) ∧
      ∀ front, front <+: bytes → front ≠ bytes →
        m'.readSnapshot handle' front = .error .truncated := by
  obtain ⟨⟨written, s'⟩, hwritten, hbytes⟩ := Except.bind_ok.mp hwrite
  obtain rfl : written = bytes := Except.ok.inj hbytes
  have hstart : Counted [] ⟨m', #[]⟩ := ⟨rfl, nofun⟩
  obtain ⟨snapshot', t', hread, -, -, -⟩ := Snapshot.readsBack_snapshot
    (counting_inverts m handle handle' written.length) hrange [] ⟨m', #[]⟩ written s' [] hstart hwritten
    (Nat.le_refl _)
  rw [List.append_nil] at hread
  refine ⟨⟨snapshot', t'.machine, ?_⟩, fun front hfront hne => ?_⟩
  · simp only [readSnapshot, hread]
    rfl
  · have htruncates : Truncates (Snapshot.read (reader handle' front.length))
        (Snapshot.read (reader handle' written.length)) :=
      Snapshot.truncates_read (truncates_value handle' (Nat.succ_le_succ hfront.length_le)) rfl
    obtain ⟨used, heq, htakes⟩ := htruncates _ _ _ _ _ hread
    rw [List.append_nil] at heq
    subst heq
    simp only [readSnapshot, htakes.cut front hfront hne]
    rfl

/-- A coroutine that is suspended in one method, with the ring in its locals. -/
def ObjectFormat.Ring.snapshot : Snapshot Value where
  payload := .ref ⟨2⟩
  frames := [⟨[{
    key := ⟨"Node", 1, 2, 0⟩
    monitors := [.ref ⟨3⟩]
    locals := ⟨[7], [], [], [], [.ref ⟨1⟩, .ref ⟨4⟩], [0]⟩
    stack := .empty }]⟩]

theorem Machine.readSnapshot_truncated_ring : Ring.snapshot.InRange ∧
    ∃ bytes, Ring.machine.writeSnapshot ⟨1⟩ Ring.snapshot = .ok bytes ∧
      Ring.other.readSnapshot ⟨2⟩ [] = .error .truncated ∧
      Ring.other.readSnapshot ⟨2⟩ bytes.dropLast = .error .truncated := by
  have hrange : Ring.snapshot.InRange := by
    simp [Snapshot.InRange, Ring.snapshot, VersionedFrame.InRange, SavedFrame.InRange,
      SavedData.InRange, SavedData.empty]
  have hwrites : ∃ byte bytes,
      Ring.machine.writeSnapshot ⟨1⟩ Ring.snapshot = .ok (byte :: bytes) := ⟨_, _, rfl⟩
  obtain ⟨byte, bytes, hwrite⟩ := hwrites
  obtain ⟨-, hcut⟩ := readSnapshot_truncated hrange hwrite Ring.other ⟨2⟩
  refine ⟨hrange, byte :: bytes, hwrite, hcut [] List.nil_prefix (List.cons_ne_nil _ _).symm,
    hcut _ (List.dropLast_prefix _) fun h => ?_⟩
  have hlength := congrArg List.length h
  rw [List.length_dropLast] at hlength
  simp at hlength

end Resumption
