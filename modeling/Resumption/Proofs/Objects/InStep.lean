import Resumption.Machine.ObjectFormat
import Resumption.Proofs.Machine.Growth

/-!
# Writer and reader in step

Two machines hold the same objects at other places. A renaming says where an object of the first is
found on the second, if it is there at all (`Machine.Renaming`): no two objects are found at one
place, and an object found again is the same up to the references it holds.

Writing gives an object the next index before its contents are written, and reading does the same.
So at any time the objects that were written and those that were read are paired by their indexes
(`image`), and the pairs are a renaming of the one heap into the other, except that the contents of
objects that are still *open* are to come (`InStep`).

* **`InStep.push`**: a further object on both sides.
* **`InStep.fill`**: an open object gets its contents.
-/

namespace Resumption

/-! ## Renaming references -/

/-- Is the second value the first one with references renamed? A slot that holds nothing is read as
null. -/
def Value.Renamed (f : Ref → Option Ref) : Value → Value → Prop
  | .ref r, v => ∃ r', f r = some r' ∧ v = .ref r'
  | .top, v => v = .null
  | w, v => v = w

/-- Is the second object the first one with references renamed? The objects in which a coroutine
keeps its state are not renamed. -/
def HeapObject.Renamed (f : Ref → Option Ref) : HeapObject → HeapObject → Prop
  | .string s, o => o = .string s
  | .instance owner fields, o => ∃ fields', o = .instance owner fields' ∧
      List.Forall₂ (fun x y => y.1 = x.1 ∧ x.2.Renamed f y.2) fields fields'
  | .array type values, o => ∃ values', o = .array type values' ∧
      List.Forall₂ (Value.Renamed f) values.toList values'.toList
  | .printStream, o => o = .printStream
  | _, _ => False

variable {f g : Ref → Option Ref}

theorem Value.Renamed.mono (hfg : ∀ r r', f r = some r' → g r = some r') {v w : Value}
    (h : v.Renamed f w) : v.Renamed g w := by
  cases v with
  | ref r =>
    obtain ⟨r', hr, rfl⟩ := h
    exact ⟨r', hfg r r' hr, rfl⟩
  | _ => exact h

namespace HeapObject.Renamed

theorem mono (hfg : ∀ r r', f r = some r' → g r = some r') {o o' : HeapObject}
    (h : o.Renamed f o') : o.Renamed g o' := by
  cases o with
  | string _ | printStream => exact h
  | «instance» owner fields =>
    obtain ⟨fields', rfl, hfields⟩ := h
    exact ⟨fields', rfl, hfields.imp fun _ _ hxy => ⟨hxy.1, hxy.2.mono hfg⟩⟩
  | array type values =>
    obtain ⟨values', rfl, hvalues⟩ := h
    exact ⟨values', rfl, hvalues.imp fun _ _ hxy => hxy.mono hfg⟩
  | _ => cases h

theorem of_string {o : HeapObject} {s : String} (h : o.Renamed f (.string s)) : o = .string s := by
  cases o with
  | string _ =>
    cases h
    rfl
  | «instance» _ _ | array _ _ =>
    obtain ⟨_, h, -⟩ := h
    cases h
  | _ => cases h

theorem of_printStream {o : HeapObject} (h : o.Renamed f .printStream) : o = .printStream := by
  cases o with
  | printStream => rfl
  | «instance» _ _ | array _ _ =>
    obtain ⟨_, h, -⟩ := h
    cases h
  | _ => cases h

end HeapObject.Renamed

/-- Where the objects of one machine are found on another, beside the continuation of each. -/
structure Machine.Renaming (m m' : Machine) (handle handle' : Ref) (f : Ref → Option Ref) :
    Prop where
  /-- different objects are renamed differently -/
  injective : ∀ r₁ r₂ r', f r₁ = some r' → f r₂ = some r' → r₁ = r₂
  /-- the handle becomes the handle -/
  continuation : f handle = some handle'
  /-- the stream becomes the stream -/
  stream : f printStream = some printStream
  /-- other objects have the same contents, renamed -/
  objects : ∀ r r', f r = some r' → r ≠ handle →
    ∃ o o', m.object? r = some o ∧ m'.object? r' = some o' ∧ o.Renamed f o'

/-! ## The two machines -/

/-- What writing the objects of a machine relies on. An index has four bytes. -/
structure Machine.Writable (m : Machine) (handle : Ref) : Prop where
  /-- there is one object for each string -/
  strings : ∀ r r' s, m.object? r = some (.string s) → m.object? r' = some (.string s) → r = r'
  /-- there is one stream -/
  stream : ∀ r, m.object? r = some .printStream ↔ r = printStream
  /-- fields are in order -/
  ordered : ∀ r owner fields, m.object? r = some (.instance owner fields) →
    FieldValues.Ordered fields
  /-- the handle is not the stream -/
  continuation : handle ≠ printStream
  /-- objects can be numbered in four bytes -/
  size : m.heap.size ≤ 256 ^ 4

/-- What reading objects onto a machine relies on. -/
structure Machine.Readable (m : Machine) (handle : Ref) : Prop where
  /-- strings are where the machine says -/
  interned : ∀ s r, m.strings.lookup s = some r → m.object? r = some (.string s)
  /-- there is a stream -/
  stream : m.object? printStream = some .printStream
  /-- there is a handle -/
  continuation : ∃ c, m.object? handle = some (.continuation c)

/-- Instances and arrays get their contents after they were placed. -/
def HeapObject.IsContainer : HeapObject → Prop
  | .instance .. | .array .. => True
  | _ => False

namespace Machine.Readable

variable {m : Machine} {handle : Ref}

theorem alloc (h : m.Readable handle) (o : HeapObject) : (m.alloc o).2.Readable handle := by
  obtain ⟨c, hc⟩ := h.continuation
  exact ⟨fun s r hs => object?_alloc_of_some (h.interned s r hs), object?_alloc_of_some h.stream,
    c, object?_alloc_of_some hc⟩

/-- A string is interned as what it is, and nothing else changes. -/
theorem intern (h : m.Readable handle) (s : String) :
    (m.intern s).2.Readable handle ∧ (m.intern s).2.object? (m.intern s).1 = some (.string s) ∧
      ∀ r o, m.object? r = some o → (m.intern s).2.object? r = some o := by
  cases hs : m.strings.lookup s with
  | some r =>
    rw [intern_of_some hs]
    exact ⟨h, h.interned s r hs, fun _ _ ho => ho⟩
  | none =>
    rw [intern_of_none hs]
    obtain ⟨hinterned, hstream, hcontinuation⟩ := h.alloc (.string s)
    refine ⟨⟨fun s' r hs' => ?_, hstream, hcontinuation⟩, object?_alloc_self m (.string s),
      fun r o ho => object?_alloc_of_some ho⟩
    by_cases hsame : s' = s
    · subst hsame
      simp only [List.lookup, beq_self_eq_true, Option.some.injEq] at hs'
      subst hs'
      exact object?_alloc_self m (.string s')
    · simp only [List.lookup, beq_false_of_ne hsame] at hs'
      exact hinterned s' r hs'

/-- Filling a container changes no string, nor the print stream, nor the continuation. -/
theorem fill (h : m.Readable handle) {r : Ref} {o o' : HeapObject} (ho : m.object? r = some o)
    (hcontainer : o.IsContainer) :
    Readable { m with heap := m.heap.setIfInBounds r.index o' } handle := by
  have hother : ∀ {x y}, m.object? x = some y → ¬ y.IsContainer →
      ({ m with heap := m.heap.setIfInBounds r.index o' } : Machine).object? x = some y := by
    intro x y hy hnot
    rw [object?_set, if_neg, hy]
    rintro rfl
    rw [ho] at hy
    cases hy
    exact hnot hcontainer
  obtain ⟨c, hc⟩ := h.continuation
  exact ⟨fun s x hs => hother (h.interned s x hs) id, hother h.stream id, c, hother hc id⟩

end Machine.Readable

namespace ObjectFormat

/-! ## Pairs -/

/-- What an object that was written is read as. -/
def image (handle handle' : Ref) (s : Written) (t : Objects) (r : Ref) : Option Ref :=
  if r = handle then some handle' else (s.lookup r).bind fun index => t.read[index]?

/-- Both sides have seen the same objects, and those that are not open are the same. -/
structure InStep (m : Machine) (handle handle' : Ref) (opened : List Ref) (s : Written)
    (t : Objects) : Prop where
  /-- as many objects are read as are written -/
  count : t.read.size = s.length
  /-- no object is written twice -/
  nodup : (s.map (·.1)).Nodup
  /-- what is written is on the heap, and has a number -/
  entries : ∀ e ∈ s, e.1.index < m.heap.size ∧ e.2 < s.length
  /-- what is being written has its number already -/
  seen : ∀ r ∈ opened, (s.lookup r).isSome
  /-- the other machine can be read into -/
  machine : t.machine.Readable handle'
  /-- different objects become different objects -/
  injective : ∀ r₁ r₂ r', image handle handle' s t r₁ = some r' →
    image handle handle' s t r₂ = some r' → r₁ = r₂
  /-- nothing else becomes the stream -/
  stream : ∀ r', image handle handle' s t Machine.printStream = some r' → r' = Machine.printStream
  /-- contents are the same, renamed, for all that is finished -/
  objects : ∀ r r', r ≠ handle → image handle handle' s t r = some r' →
    ∃ o o', m.object? r = some o ∧ t.machine.object? r' = some o' ∧
      if r ∈ opened then o'.IsContainer else o.Renamed (image handle handle' s t) o'

/-- Objects are still read as what they were read as before. -/
def Grows (handle handle' : Ref) (s : Written) (t : Objects) (s' : Written) (t' : Objects) : Prop :=
  ∀ r r', image handle handle' s t r = some r' → image handle handle' s' t' r = some r'

namespace InStep

variable {m : Machine} {handle handle' : Ref} {opened : List Ref} {s : Written} {t : Objects}

/-- Nothing was written yet. -/
theorem start {m' : Machine} (hm : m.Writable handle) (hm' : m'.Readable handle') :
    InStep m handle handle' [] [] ⟨m', #[]⟩ := by
  have himage : ∀ {r r'}, image handle handle' [] ⟨m', #[]⟩ r = some r' → r = handle := by
    intro r r' h
    by_cases hr : r = handle
    · exact hr
    · rw [image, if_neg hr] at h
      cases h
  exact ⟨rfl, List.nodup_nil, nofun, nofun, hm',
    fun r₁ r₂ r' h₁ h₂ => (himage h₁).trans (himage h₂).symm,
    fun r' h => absurd (himage h).symm hm.continuation, fun r r' hr h => absurd (himage h) hr⟩

theorem index_lt (h : InStep m handle handle' opened s t) {r : Ref} {index : Nat}
    (hr : s.lookup r = some index) : index < s.length := (h.entries _ (Run.lookup_mem hr)).2

theorem not_opened (h : InStep m handle handle' opened s t) {r : Ref} (hnew : s.lookup r = none) :
    r ∉ opened := by
  intro hmem
  have hseen := h.seen r hmem
  rw [hnew] at hseen
  cases hseen

/-- An object that was written is read as some object. -/
theorem image_of_lookup (h : InStep m handle handle' opened s t) {r : Ref} {index : Nat}
    (hne : r ≠ handle) (hr : s.lookup r = some index) :
    ∃ r', t.read[index]? = some r' ∧ image handle handle' s t r = some r' := by
  have hlt : index < t.read.size := h.count ▸ h.index_lt hr
  refine ⟨t.read[index], Array.getElem?_eq_getElem hlt, ?_⟩
  rw [image, if_neg hne, hr, Option.bind_some, Array.getElem?_eq_getElem hlt]

/-- There are no more indexes than objects. -/
theorem length_le (h : InStep m handle handle' opened s t) : s.length ≤ m.heap.size := by
  have hindex : Function.Injective Ref.index := by
    rintro ⟨a⟩ ⟨b⟩ hab
    exact congrArg Ref.mk hab
  have hnodup : (s.map (·.1.index)).Nodup := by
    have hmap := List.Nodup.map hindex h.nodup
    rwa [List.map_map] at hmap
  have hsubset : s.map (·.1.index) ⊆ List.range m.heap.size := by
    intro index hindex
    obtain ⟨e, he, rfl⟩ := List.mem_map.mp hindex
    exact List.mem_range.mpr (h.entries e he).1
  simpa using (List.subperm_of_subset hnodup hsubset).length_le

/-- What objects are read as after one more was written and read. -/
theorem image_push (h : InStep m handle handle' opened s t) (M : Machine) (r r' x : Ref) :
    image handle handle' ((r, s.length) :: s) ⟨M, t.read.push r'⟩ x =
      if x = handle then some handle' else if x = r then some r' else
        image handle handle' s t x := by
  simp only [image]
  by_cases hx : x = handle
  · rw [if_pos hx, if_pos hx]
  rw [if_neg hx, if_neg hx]
  by_cases hxr : x = r
  · subst hxr
    simp [List.lookup, ← h.count]
  · rw [if_neg hxr, if_neg hx]
    simp only [List.lookup, beq_false_of_ne hxr]
    cases hlookup : s.lookup x with
    | none => rfl
    | some index =>
      have hlt := h.index_lt hlookup
      simp only [Option.bind_some, Array.getElem?_push]
      rw [if_neg (by rw [h.count]; omega)]

/-- **One more object on both sides.** It is new to the writer, and not yet the image of another. -/
theorem push (h : InStep m handle handle' opened s t) {M : Machine} {r r' : Ref} {o o' : HeapObject}
    {opened' : List Ref} (hr : r ≠ handle) (hnew : s.lookup r = none) (ho : m.object? r = some o)
    (hM : M.Readable handle') (hkeep : ∀ x y, t.machine.object? x = some y → M.object? x = some y)
    (ho' : M.object? r' = some o') (hfresh : ∀ x, image handle handle' s t x ≠ some r')
    (hstream : r = Machine.printStream → r' = Machine.printStream)
    (hopened : ∀ x, x ≠ r → (x ∈ opened' ↔ x ∈ opened))
    (hstate : if r ∈ opened' then o'.IsContainer else ∀ f, o.Renamed f o') :
    InStep m handle handle' opened' ((r, s.length) :: s) ⟨M, t.read.push r'⟩ ∧
      Grows handle handle' s t ((r, s.length) :: s) ⟨M, t.read.push r'⟩ ∧
      image handle handle' ((r, s.length) :: s) ⟨M, t.read.push r'⟩ r = some r' := by
  have himage := h.image_push M r r'
  have hself := himage r
  rw [if_neg hr, if_pos rfl] at hself
  have hunseen : image handle handle' s t r = none := by
    rw [image, if_neg hr, hnew]
    rfl
  have hgrows : Grows handle handle' s t ((r, s.length) :: s) ⟨M, t.read.push r'⟩ := by
    intro x x' hx
    rw [himage]
    by_cases hxh : x = handle
    · rw [if_pos hxh]
      rw [image, if_pos hxh] at hx
      exact hx
    · rw [if_neg hxh, if_neg (fun hxr => by rw [hxr, hunseen] at hx; cases hx)]
      exact hx
  -- what is read as something is the new object, or was so before
  have hback : ∀ {x x'}, image handle handle' ((r, s.length) :: s) ⟨M, t.read.push r'⟩ x =
      some x' → (x = r ∧ x' = r') ∨ (x ≠ r ∧ image handle handle' s t x = some x') := by
    intro x x' hx
    by_cases hxr : x = r
    · subst hxr
      rw [hself] at hx
      exact .inl ⟨rfl, (Option.some.inj hx).symm⟩
    · refine .inr ⟨hxr, ?_⟩
      rw [himage, if_neg hxr] at hx
      rw [← hx]
      split
      · rename_i hxh
        rw [image, if_pos hxh]
      · rfl
  refine ⟨?_, hgrows, hself⟩
  constructor
  case count => simp [h.count]
  case nodup =>
    refine List.nodup_cons.mpr ⟨fun hmem => ?_, h.nodup⟩
    obtain ⟨e, he, hfst⟩ := List.mem_map.mp hmem
    refine absurd hnew (Option.isSome_iff_ne_none.mp (List.lookup_isSome_iff.mpr ⟨e, he, ?_⟩))
    exact beq_iff_eq.mpr hfst.symm
  case entries =>
    intro e he
    rcases List.mem_cons.mp he with rfl | he
    · exact ⟨Machine.object?_lt ho, Nat.lt_succ_self _⟩
    · exact ⟨(h.entries e he).1, Nat.lt_succ_of_lt (h.entries e he).2⟩
  case seen =>
    intro x hx
    by_cases hxr : x = r
    · subst hxr
      simp [List.lookup]
    · simp only [List.lookup, beq_false_of_ne hxr]
      exact h.seen x ((hopened x hxr).mp hx)
  case machine => exact hM
  case injective =>
    intro r₁ r₂ x' h₁ h₂
    rcases hback h₁ with ⟨hr₁, hx₁⟩ | ⟨-, hx₁⟩ <;> rcases hback h₂ with ⟨hr₂, hx₂⟩ | ⟨-, hx₂⟩
    · exact hr₁.trans hr₂.symm
    · exact absurd (hx₁ ▸ hx₂) (hfresh r₂)
    · exact absurd (hx₂ ▸ hx₁) (hfresh r₁)
    · exact h.injective r₁ r₂ x' hx₁ hx₂
  case stream =>
    intro x' hx
    rcases hback hx with ⟨heq, rfl⟩ | ⟨-, hx⟩
    · exact hstream heq.symm
    · exact h.stream x' hx
  case objects =>
    intro x x' hxh hx
    rcases hback hx with ⟨rfl, rfl⟩ | ⟨hxr, hx⟩
    · refine ⟨o, o', ho, ho', ?_⟩
      split
      · rename_i hmem
        rwa [if_pos hmem] at hstate
      · rename_i hmem
        rw [if_neg hmem] at hstate
        exact hstate _
    · obtain ⟨y, y', hy, hy', hxy⟩ := h.objects x x' hxh hx
      refine ⟨y, y', hy, hkeep x' y' hy', ?_⟩
      simp only [hopened x hxr]
      split
      · rename_i hmem
        rwa [if_pos hmem] at hxy
      · rename_i hmem
        rw [if_neg hmem] at hxy
        exact hxy.mono hgrows

/-- **An open object gets its contents.** -/
theorem fill {r r' : Ref} {o : HeapObject} (o' : HeapObject) (h : InStep m handle handle' (r :: opened) s t)
    (hopen : r ∉ opened) (hr : r ≠ handle) (hr' : image handle handle' s t r = some r')
    (ho : m.object? r = some o) (hsame : o.Renamed (image handle handle' s t) o') :
    InStep m handle handle' opened s
      { t with machine := { t.machine with heap := t.machine.heap.setIfInBounds r'.index o' } } := by
  obtain ⟨_, placed, -, hplaced, hcontainer⟩ := h.objects r r' hr hr'
  rw [if_pos (List.mem_cons_self ..)] at hcontainer
  refine ⟨h.count, h.nodup, h.entries, fun x hx => h.seen x (List.mem_cons_of_mem _ hx),
    h.machine.fill hplaced hcontainer, h.injective, h.stream, fun x x' hxh hx => ?_⟩
  rw [Machine.object?_set]
  by_cases hxr : x = r
  · subst hxr
    obtain rfl : r' = x' := Option.some.inj (hr'.symm.trans hx)
    refine ⟨o, o', ho, ?_, ?_⟩
    · rw [if_pos rfl, hplaced]
      rfl
    · rw [if_neg hopen]
      exact hsame
  · obtain ⟨y, y', hy, hy', hxy⟩ := h.objects x x' hxh hx
    have hne : x' ≠ r' := fun heq => hxr (h.injective x r r' (heq ▸ hx) hr')
    refine ⟨y, y', hy, by rw [if_neg hne, hy'], ?_⟩
    have hmem : x ∈ r :: opened ↔ x ∈ opened := by simp [hxr]
    simp only [hmem] at hxy
    exact hxy

end InStep

end ObjectFormat

end Resumption
