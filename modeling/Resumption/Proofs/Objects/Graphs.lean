import Resumption.Proofs.Objects.RoundTrip

/-!
# Object graphs are read as they were written

Values of one machine are written one after the other and read onto another machine. What they were
read as is a renaming of the first heap into the second (`InStep.isRenaming`), so objects that are
shared stay shared, and cycles stay cycles (`read_write_graph`).

Print streams are the exception: each is read as the one that the other machine writes to, so the
heap may have no other than its own (`read_write_graph_streams`).
-/

namespace Resumption.ObjectFormat

variable {m m' : Machine} {handle handle' : Ref} {s : Written} {t : Objects}

/-- What objects are read as in the end. The print stream has its place whether it was written or
not. -/
def placed (handle handle' : Ref) (s : Written) (t : Objects) (r : Ref) : Option Ref :=
  if r = Machine.printStream then some Machine.printStream else image handle handle' s t r

namespace InStep

theorem placed_of_image (h : InStep m handle handle' [] s t) (r r' : Ref)
    (hr : image handle handle' s t r = some r') : placed handle handle' s t r = some r' := by
  rw [placed]
  split
  · rename_i heq
    rw [h.stream r' (heq ▸ hr)]
  · exact hr

/-- An object that was read is what was written, up to references. -/
theorem renamed (h : InStep m handle handle' [] s t) {r r' : Ref} (hr : r ≠ handle)
    (hr' : image handle handle' s t r = some r') :
    ∃ o o', m.object? r = some o ∧ t.machine.object? r' = some o' ∧
      o.Renamed (image handle handle' s t) o' := by
  obtain ⟨o, o', ho, ho', hstate⟩ := h.objects r r' hr hr'
  rw [if_neg List.not_mem_nil] at hstate
  exact ⟨o, o', ho, ho', hstate⟩

/-- Nothing but the print stream is read as the print stream. -/
theorem image_stream (hm : m.Writable handle) (h : InStep m handle handle' [] s t) {r : Ref}
    (hr : image handle handle' s t r = some Machine.printStream) : r = Machine.printStream := by
  by_cases hrh : r = handle
  · rw [image, if_pos hrh] at hr
    obtain ⟨c, hc⟩ := h.machine.continuation
    rw [Option.some.inj hr, h.machine.stream] at hc
    cases hc
  · obtain ⟨o, o', ho, ho', hsame⟩ := h.renamed hrh hr
    obtain rfl : .printStream = o' := Option.some.inj (h.machine.stream.symm.trans ho')
    rw [hsame.of_printStream] at ho
    exact (hm.stream r).mp ho

/-- **The renaming.** In the end what objects are read as is a renaming of the heap. -/
theorem isRenaming (hm : m.Writable handle) (h : InStep m handle handle' [] s t) :
    m.Renaming t.machine handle handle' (placed handle handle' s t) where
  injective := by
    intro r₁ r₂ r' h₁ h₂
    simp only [placed] at h₁ h₂
    split at h₁ <;> split at h₂
    · rename_i heq₁ heq₂
      exact heq₁.trans heq₂.symm
    · rename_i heq₁ _
      cases h₁
      exact heq₁.trans (h.image_stream hm h₂).symm
    · rename_i _ heq₂
      cases h₂
      exact (h.image_stream hm h₁).trans heq₂.symm
    · exact h.injective r₁ r₂ r' h₁ h₂
  continuation := by
    rw [placed, if_neg hm.continuation, image, if_pos rfl]
  stream := if_pos rfl
  objects := by
    intro r r' hr hrh
    by_cases heq : r = Machine.printStream
    · rw [placed, if_pos heq] at hr
      cases hr
      exact ⟨.printStream, .printStream, (hm.stream r).mpr heq, h.machine.stream, rfl⟩
    · rw [placed, if_neg heq] at hr
      obtain ⟨o, o', ho, ho', hsame⟩ := h.renamed hrh hr
      exact ⟨o, o', ho, ho', hsame.mono h.placed_of_image⟩

end InStep

/-- **Reading undoes writing, whatever the graph.** How many levels deep objects may be inside of one
another is no limit for the writer. What it wrote is read, byte by byte, as the same values on the
other machine, under one renaming. -/
theorem read_write_graph (hm : m.Writable handle) (hm' : m'.Readable handle')
    (values : List Value) :
    (∀ levels, m.heap.size < levels →
      Snapshot.writeEach (writeWith (writeReference m.heap handle levels)) values =
        Snapshot.writeEach (writer m handle).write values) ∧
    ∀ bytes s, Snapshot.writeEach (writer m handle).write values [] = .ok (bytes, s) →
      ∀ rest size, bytes.length ≤ size →
        ∃ values' t f, Bytes.items values.length (reader handle' size).read
            ⟨⟨m', #[]⟩, bytes ++ rest⟩ = .ok (values', ⟨t, rest⟩) ∧
          m.Renaming t.machine handle handle' f ∧
          List.Forall₂ (Value.Renamed f) values values' := by
  refine ⟨fun levels hlevels => ?_, fun bytes s hwrite rest size hsize => ?_⟩
  · rw [writeReference_levels m.heap handle hlevels]
    rfl
  · obtain ⟨values', t, hread, hstep, -, hvalues⟩ := Snapshot.readsBack_each values
      (fun v _ => (pairing_inverts hm handle' size).object v)
      (fun _ _ _ _ _ _ hkeeps hv => hkeeps _ _ hv) [] ⟨m', #[]⟩ bytes s rest
      (InStep.start hm hm') hwrite hsize
    exact ⟨values', t, placed handle handle' s t, hread, hstep.isRenaming hm,
      hvalues.imp fun _ _ hv => hv.mono hstep.placed_of_image⟩

/-! ## A ring -/

namespace Ring

/-- A node that is its own next one, and an array that holds the node and its label. -/
def machine : Machine :=
  { Machine.new with heap := #[.printStream, .continuation .empty, .string "a",
    .instance { text := "Node" } [({ text := "label" }, .ref ⟨2⟩), ({ text := "next" }, .ref ⟨3⟩)],
    .array (.array (.object .object)) #[.ref ⟨3⟩, .null, .ref ⟨2⟩]] }

/-- The other machine has the string already. -/
def other : Machine := ((Machine.new.intern "a").2.alloc (.continuation .empty)).2

/-- An array, a number, the handle, the print stream, and a node that was met before. -/
def values : List Value := [.ref ⟨4⟩, .int 7, .ref ⟨1⟩, .ref ⟨0⟩, .ref ⟨3⟩]

/-- There is one string. -/
theorem eq_of_string {r : Ref} {s : String} (h : machine.object? r = some (.string s)) :
    r = ⟨2⟩ := by
  obtain ⟨index⟩ := r
  have hlt : index < 5 := Machine.object?_lt h
  interval_cases index
  case «2» => rfl
  all_goals cases h

theorem writable : machine.Writable ⟨1⟩ where
  strings r r' s hr hr' := (eq_of_string hr).trans (eq_of_string hr').symm
  stream := by
    rintro ⟨index⟩
    refine ⟨fun h => ?_, fun h => by cases h; rfl⟩
    have hlt : index < 5 := Machine.object?_lt h
    interval_cases index
    case «0» => rfl
    all_goals cases h
  ordered := by
    rintro ⟨index⟩ owner fields h
    have hlt : index < 5 := Machine.object?_lt h
    interval_cases index <;> cases h
    exact .cons (List.forall_mem_singleton.mpr (by decide +kernel)) (.cons nofun .nil)
  continuation := by decide
  size := by decide

theorem readable : other.Readable ⟨2⟩ where
  interned := by
    intro s r h
    have hmem : (s, r) ∈ [("a", (⟨1⟩ : Ref))] := Run.lookup_mem h
    cases List.mem_singleton.mp hmem
    rfl
  stream := rfl
  continuation := ⟨.empty, rfl⟩

end Ring

theorem read_write_graph_ring : Ring.machine.Writable ⟨1⟩ ∧ Ring.other.Readable ⟨2⟩ ∧
    ∃ bytes s, Snapshot.writeEach (writer Ring.machine ⟨1⟩).write Ring.values [] = .ok (bytes, s) ∧
      ∃ values' t f, Bytes.items 5 (reader ⟨2⟩ (bytes.length + 2)).read
          ⟨⟨Ring.other, #[]⟩, bytes ++ [1, 2]⟩ = .ok (values', ⟨t, [1, 2]⟩) ∧
        Ring.machine.Renaming t.machine ⟨1⟩ ⟨2⟩ f ∧
        List.Forall₂ (Value.Renamed f) Ring.values values' := by
  have hwrites : ∃ bytes s,
      Snapshot.writeEach (writer Ring.machine ⟨1⟩).write Ring.values [] = .ok (bytes, s) :=
    ⟨_, _, rfl⟩
  obtain ⟨bytes, s, hwrite⟩ := hwrites
  exact ⟨Ring.writable, Ring.readable, bytes, s, hwrite,
    (read_write_graph Ring.writable Ring.readable Ring.values).2 bytes s hwrite [1, 2]
      (bytes.length + 2) (Nat.le_add_right _ _)⟩

/-! ## Two print streams -/

namespace Streams

/-- Two print streams besides the one that the machine writes to. -/
def machine : Machine :=
  { Machine.new with heap := #[.printStream, .continuation .empty, .printStream, .printStream] }

/-- Another machine, with nothing but a handle on its heap. -/
def other : Machine := (Machine.new.alloc (.continuation .empty)).2

theorem readable : other.Readable ⟨1⟩ where
  interned s r h := by cases h
  stream := rfl
  continuation := ⟨.empty, rfl⟩

/-- There are no strings and no instances. -/
theorem plain (r : Ref) : (∀ s, machine.object? r ≠ some (.string s)) ∧
    ∀ owner fields, machine.object? r ≠ some (.instance owner fields) := by
  obtain ⟨index⟩ := r
  constructor
  all_goals
    intros
    intro h
    have hlt : index < 4 := Machine.object?_lt h
    interval_cases index <;> cases h

end Streams

/-- **Print streams are not told apart.** Both are read as the print stream of the other machine, and
no renaming sends two objects to one. -/
theorem read_write_graph_streams :
    (∀ r r' s, Streams.machine.object? r = some (.string s) →
      Streams.machine.object? r' = some (.string s) → r = r') ∧
    (∀ r owner fields, Streams.machine.object? r = some (.instance owner fields) →
      FieldValues.Ordered fields) ∧
    Streams.machine.object? Machine.printStream = some .printStream ∧
    (⟨1⟩ : Ref) ≠ Machine.printStream ∧ Streams.machine.heap.size ≤ 256 ^ 4 ∧
    Streams.other.Readable ⟨1⟩ ∧
    ∃ bytes s, Snapshot.writeEach (writer Streams.machine ⟨1⟩).write [.ref ⟨2⟩, .ref ⟨3⟩] [] =
        .ok (bytes, s) ∧
      ∃ values' t, Bytes.items 2 (reader ⟨1⟩ bytes.length).read ⟨⟨Streams.other, #[]⟩, bytes⟩ =
          .ok (values', ⟨t, []⟩) ∧
        ∀ f, Streams.machine.Renaming t.machine ⟨1⟩ ⟨1⟩ f →
          ¬ List.Forall₂ (Value.Renamed f) [.ref ⟨2⟩, .ref ⟨3⟩] values' := by
  refine ⟨fun r _ s h => absurd h ((Streams.plain r).1 s),
    fun r owner fields h => absurd h ((Streams.plain r).2 owner fields), rfl, by decide, by decide,
    Streams.readable, _, _, rfl, [.ref ⟨0⟩, .ref ⟨0⟩], _, rfl, fun f hf hvalues => ?_⟩
  cases hvalues with
  | cons hfirst hrest =>
    cases hrest with
    | cons hsecond _ =>
      obtain ⟨a, ha, hfirst⟩ := hfirst
      obtain ⟨b, hb, hsecond⟩ := hsecond
      cases hfirst
      cases hsecond
      exact absurd (hf.injective ⟨2⟩ ⟨3⟩ _ ha hb) (by decide)

end Resumption.ObjectFormat
