import Mathlib
import Resumption.Machine.Interpreter

/-!
# Machines before and after a run

Whatever code does, the machine only moves forward:

* **`Machine.Precedes`** holds between a machine and each later one. Loaded classes and natives stay,
  the heap grows, and an object stays what it is: strings, method states and saved data never
  change, other objects keep their type.
* **`Machine.Sound`** holds of every machine that a run can leave. String objects are exactly the
  interned ones, there is one print stream, no stored value is `top`, and fields are in order. What
  else is asked of method states and of loaded code is left open (`Discipline`): the keys of method
  states are as good as the code that makes them.

Each way to change a machine (allocation, interning, replacing an object, setting a static field)
has one lemma for either.
-/

namespace Resumption

/-! ## Later machines -/

/-- What can become of an object. -/
def HeapObject.Evolves : HeapObject → HeapObject → Prop
  | .instance c _, .instance d _ => c = d
  | .array t _, .array u _ => t = u
  | .continuation _, .continuation _ => True
  | .lockState _, .lockState _ => True
  | o, o' => o = o'

namespace HeapObject.Evolves

/-- An object can stay as it is. -/
theorem refl (o : HeapObject) : o.Evolves o := by
  cases o <;> trivial

theorem symm {o o' : HeapObject} (h : o.Evolves o') : o'.Evolves o := by
  cases o <;> cases o' <;> first | exact Eq.symm h | exact h

/-- Strings never change. -/
theorem of_string {s : String} {o : HeapObject} (h : (HeapObject.string s).Evolves o) :
    o = .string s := by
  cases o <;> exact Eq.symm h

/-- Method states never change. -/
theorem of_methodState {s : MethodState} {o : HeapObject}
    (h : (HeapObject.methodState s).Evolves o) : o = .methodState s := by
  cases o <;> exact Eq.symm h

/-- Saved data never change. -/
theorem of_data {d : DataArrays} {o : HeapObject} (h : (HeapObject.data d).Evolves o) :
    o = .data d := by
  cases o <;> exact Eq.symm h

/-- The print stream stays the print stream. -/
theorem of_printStream {o : HeapObject} (h : HeapObject.printStream.Evolves o) :
    o = .printStream := by
  cases o <;> exact Eq.symm h

/-- An instance keeps its class. -/
theorem of_instance {owner : ClassName} {fields : FieldValues} {o : HeapObject}
    (h : (HeapObject.instance owner fields).Evolves o) : ∃ fields', o = .instance owner fields' := by
  cases o with
  | «instance» _ fields' => exact ⟨fields', by rw [show owner = _ from h]⟩
  | _ => cases h

/-- An array keeps its type. -/
theorem of_array {type : RefType} {values : Array Value} {o : HeapObject}
    (h : (HeapObject.array type values).Evolves o) : ∃ values', o = .array type values' := by
  cases o with
  | array _ values' => exact ⟨values', by rw [show type = _ from h]⟩
  | _ => cases h

/-- A coroutine object stays a coroutine object. -/
theorem of_continuation {c : Continuation Ref} {o : HeapObject}
    (h : (HeapObject.continuation c).Evolves o) : ∃ c', o = .continuation c' := by
  cases o with
  | continuation c' => exact ⟨c', rfl⟩
  | _ => cases h

/-- A list of monitors stays a list of monitors. -/
theorem of_lockState {l : LockState Ref} {o : HeapObject}
    (h : (HeapObject.lockState l).Evolves o) : ∃ l', o = .lockState l' := by
  cases o with
  | lockState l' => exact ⟨l', rfl⟩
  | _ => cases h

/-- What can become of an object in two steps can become of it in one. -/
theorem trans {o o' o'' : HeapObject} (h : o.Evolves o') (h' : o'.Evolves o'') : o.Evolves o'' := by
  cases o with
  | string s =>
    cases h.of_string
    exact h'
  | «instance» owner fields =>
    obtain ⟨fields', rfl⟩ := h.of_instance
    obtain ⟨fields'', rfl⟩ := h'.of_instance
    rfl
  | array type values =>
    obtain ⟨values', rfl⟩ := h.of_array
    obtain ⟨values'', rfl⟩ := h'.of_array
    rfl
  | continuation c =>
    obtain ⟨c', rfl⟩ := h.of_continuation
    obtain ⟨c'', rfl⟩ := h'.of_continuation
    trivial
  | methodState s =>
    cases h.of_methodState
    exact h'
  | data d =>
    cases h.of_data
    exact h'
  | lockState l =>
    obtain ⟨l', rfl⟩ := h.of_lockState
    obtain ⟨l'', rfl⟩ := h'.of_lockState
    trivial
  | printStream =>
    cases h.of_printStream
    exact h'

/-- An object keeps its type. -/
theorem type_eq {o o' : HeapObject} (h : o.Evolves o') : o'.type = o.type := by
  cases o with
  | «instance» owner fields =>
    obtain ⟨fields', rfl⟩ := h.of_instance
    rfl
  | array type values =>
    obtain ⟨values', rfl⟩ := h.of_array
    rfl
  | continuation c =>
    obtain ⟨c', rfl⟩ := h.of_continuation
    rfl
  | lockState l =>
    obtain ⟨l', rfl⟩ := h.of_lockState
    rfl
  | string _ =>
    cases h.of_string
    rfl
  | methodState _ =>
    cases h.of_methodState
    rfl
  | data _ =>
    cases h.of_data
    rfl
  | printStream =>
    cases h.of_printStream
    rfl

/-- An array is sound if none of its elements is `top`. -/
theorem array (type : RefType) (values values' : Array Value) :
    (HeapObject.array type values).Evolves (.array type values') := rfl

/-- Coroutine objects may change in any way. -/
theorem continuation (c c' : Continuation Ref) :
    (HeapObject.continuation c).Evolves (.continuation c') := trivial

/-- Nothing but the string itself becomes a string. -/
theorem to_string {s : String} {o : HeapObject} (h : o.Evolves (.string s)) :
    o = .string s :=
  h.symm.of_string

/-- Nothing but the print stream becomes the print stream. -/
theorem to_printStream {o : HeapObject} (h : o.Evolves .printStream) : o = .printStream :=
  h.symm.of_printStream

end HeapObject.Evolves

namespace Machine

/-- A machine and one that a run makes of it. -/
structure Precedes (m m' : Machine) : Prop where
  /-- the same classes are loaded -/
  classes : m'.classes = m.classes
  /-- the same methods are native -/
  natives : m'.natives = m.natives
  /-- calls are bounded as before -/
  maxDepth : m'.maxDepth = m.maxDepth
  /-- steps are bounded as before -/
  maxSteps : m'.maxSteps = m.maxSteps
  /-- what was ready is ready -/
  initialized : ∀ c ∈ m.initialized, c ∈ m'.initialized
  /-- strings are where they were -/
  strings : ∀ s r, m.strings.lookup s = some r → m'.strings.lookup s = some r
  /-- objects have only evolved -/
  objects : ∀ r o, m.object? r = some o → ∃ o', m'.object? r = some o' ∧ o.Evolves o'

namespace Precedes

/-- Every machine precedes itself. -/
theorem refl (m : Machine) : m.Precedes m :=
  ⟨rfl, rfl, rfl, rfl, fun _ h => h, fun _ _ h => h, fun _ o h => ⟨o, h, .refl o⟩⟩

/-- A machine precedes what its successors precede. -/
theorem trans {m m' m'' : Machine} (h : m.Precedes m') (h' : m'.Precedes m'') :
    m.Precedes m'' where
  classes := h'.classes.trans h.classes
  natives := h'.natives.trans h.natives
  maxDepth := h'.maxDepth.trans h.maxDepth
  maxSteps := h'.maxSteps.trans h.maxSteps
  initialized := fun c hc => h'.initialized c (h.initialized c hc)
  strings := fun s r hs => h'.strings s r (h.strings s r hs)
  objects := fun r o ho => by
    obtain ⟨o', ho', he⟩ := h.objects r o ho
    obtain ⟨o'', ho'', he'⟩ := h'.objects r o' ho'
    exact ⟨o'', ho'', he.trans he'⟩

/-- Changes that leave heap, strings and code alone. -/
theorem of_heap_eq {m m' : Machine} (hclasses : m'.classes = m.classes)
    (hnatives : m'.natives = m.natives) (hdepth : m'.maxDepth = m.maxDepth)
    (hsteps : m'.maxSteps = m.maxSteps) (hinit : ∀ c ∈ m.initialized, c ∈ m'.initialized)
    (hstrings : m'.strings = m.strings) (hheap : m'.heap = m.heap) : m.Precedes m' where
  classes := hclasses
  natives := hnatives
  maxDepth := hdepth
  maxSteps := hsteps
  initialized := hinit
  strings := fun s r hs => by rw [hstrings]; exact hs
  objects := fun r o ho => ⟨o, by rw [object?, hheap]; exact ho, .refl o⟩

/-- An object of the earlier machine and its state in the later one are related. -/
theorem evolves {m m' : Machine} (h : m.Precedes m') {r : Ref} {o o' : HeapObject}
    (ho : m.object? r = some o) (ho' : m'.object? r = some o') : o.Evolves o' := by
  obtain ⟨o'', ho'', he⟩ := h.objects r o ho
  rw [ho'] at ho''
  cases ho''
  exact he

/-- Later machines know the same hierarchy. -/
theorem hierarchy {m m' : Machine} (h : m.Precedes m') : m'.hierarchy = m.hierarchy := by
  rw [Machine.hierarchy, Machine.hierarchy, h.classes]

end Precedes

/-- An allocation is found at the end of the heap, and nowhere else does a lookup change. -/
theorem object?_alloc (m : Machine) (o : HeapObject) (r : Ref) :
    (m.alloc o).2.object? r = if r.index = m.heap.size then some o else m.object? r := by
  simp only [alloc, object?, Array.getElem?_push]

/-- Objects lie within the heap. -/
theorem object?_lt {m : Machine} {r : Ref} {o : HeapObject} (h : m.object? r = some o) :
    r.index < m.heap.size :=
  (Array.getElem?_eq_some_iff.mp h).1

/-- Allocating leaves the objects that are there. -/
theorem object?_alloc_of_some {m : Machine} {o o' : HeapObject} {r : Ref}
    (h : m.object? r = some o') : (m.alloc o).2.object? r = some o' := by
  rw [object?_alloc, if_neg (Nat.ne_of_lt (object?_lt h)), h]

/-- The allocated object is found at its reference. -/
theorem object?_alloc_self (m : Machine) (o : HeapObject) :
    (m.alloc o).2.object? (m.alloc o).1 = some o := by
  rw [object?_alloc]
  exact if_pos rfl

/-- Allocating moves the machine forward. -/
theorem Precedes.alloc (m : Machine) (o : HeapObject) : m.Precedes (m.alloc o).2 where
  classes := rfl
  natives := rfl
  maxDepth := rfl
  maxSteps := rfl
  initialized := fun _ h => h
  strings := fun _ _ h => h
  objects := fun _ o' h => ⟨o', object?_alloc_of_some h, .refl o'⟩

/-- A replaced object is found at its reference if there was one, and other lookups do not change.
-/
theorem object?_set (m : Machine) (r r' : Ref) (o : HeapObject) :
    ({ m with heap := m.heap.setIfInBounds r.index o } : Machine).object? r' =
      if r' = r then (m.object? r).map (fun _ => o) else m.object? r' := by
  simp only [object?, Array.getElem?_setIfInBounds]
  by_cases h : r' = r
  · subst h
    by_cases hlt : r'.index < m.heap.size
    · simp [hlt]
    · simp [hlt]
  · have hne : r.index ≠ r'.index := fun he => h (by cases r; cases r'; simp_all)
    rw [if_neg hne, if_neg h]

/-- Every object is still there, or there is another one in its place that is related to it. -/
theorem exists_object_set {m : Machine} {r : Ref} {o : HeapObject}
    {R : HeapObject → HeapObject → Prop} (hrefl : ∀ o', R o' o')
    (h : ∀ o', m.object? r = some o' → R o' o) {r' : Ref} {o' : HeapObject}
    (ho' : m.object? r' = some o') : ∃ o'',
      ({ m with heap := m.heap.setIfInBounds r.index o } : Machine).object? r' = some o'' ∧ R o' o'' := by
  rw [object?_set]
  by_cases hr : r' = r
  · subst hr
    rw [if_pos rfl, ho']
    exact ⟨o, rfl, h o' ho'⟩
  · rw [if_neg hr]
    exact ⟨o', ho', hrefl o'⟩

/-- Replacing an object by what can become of it moves the machine forward. -/
theorem Precedes.set {m : Machine} {r : Ref} {o : HeapObject}
    (h : ∀ o', m.object? r = some o' → o'.Evolves o) :
    m.Precedes { m with heap := m.heap.setIfInBounds r.index o } where
  classes := rfl
  natives := rfl
  maxDepth := rfl
  maxSteps := rfl
  initialized := fun _ h => h
  strings := fun _ _ h => h
  objects := fun _ _ => exists_object_set .refl h

/-- A literal that was interned keeps its object. -/
theorem intern_of_some {m : Machine} {s : String} {r : Ref} (h : m.strings.lookup s = some r) :
    m.intern s = (r, m) := by
  simp only [intern, h]

/-- A new literal is allocated and recorded. -/
theorem intern_of_none {m : Machine} {s : String} (h : m.strings.lookup s = none) :
    m.intern s = (⟨m.heap.size⟩,
      { (m.alloc (.string s)).2 with strings := (s, ⟨m.heap.size⟩) :: m.strings }) := by
  simp only [intern, h]
  rfl

/-- Interning moves the machine forward. -/
theorem Precedes.intern (m : Machine) (s : String) : m.Precedes (m.intern s).2 := by
  cases hs : m.strings.lookup s with
  | some r =>
    rw [intern_of_some hs]
    exact .refl m
  | none =>
    rw [intern_of_none hs]
    refine ⟨rfl, rfl, rfl, rfl, fun _ h => h, fun s' r hs' => ?_, fun r o ho =>
      ⟨o, object?_alloc_of_some ho, .refl o⟩⟩
    have hne : (s' == s) = false := by
      rw [beq_eq_false_iff_ne]
      rintro rfl
      rw [hs] at hs'
      cases hs'
    simp only [List.lookup, hne]
    exact hs'

end Machine

/-! ## What code leaves alone -/

/-- What running code can make of an object. What a continuation has saved, it leaves alone: that is
replaced only between executions. -/
def HeapObject.Proceeds (o o' : HeapObject) : Prop :=
  o.Evolves o' ∧ ∀ c, o = .continuation c →
    ∃ c', o' = .continuation c' ∧ c'.saved = c.saved ∧ c'.first = c.first

namespace HeapObject.Proceeds

/-- An object can stay as it is, its saved states included. -/
theorem refl (o : HeapObject) : o.Proceeds o := ⟨.refl o, fun c h => ⟨c, h, rfl, rfl⟩⟩

theorem trans {o o' o'' : HeapObject} (h : o.Proceeds o') (h' : o'.Proceeds o'') :
    o.Proceeds o'' := by
  refine ⟨h.1.trans h'.1, fun c hc => ?_⟩
  obtain ⟨c', hc', hsaved, hfirst⟩ := h.2 c hc
  obtain ⟨c'', hc'', hsaved', hfirst'⟩ := h'.2 c' hc'
  exact ⟨c'', hc'', hsaved'.trans hsaved, hfirst'.trans hfirst⟩

/-- Only continuations have anything saved. -/
theorem of_evolves {o o' : HeapObject} (h : o.Evolves o') (hother : ∀ c, o' ≠ .continuation c) :
    o.Proceeds o' := by
  refine ⟨h, fun c hc => ?_⟩
  subst hc
  obtain ⟨c', hc'⟩ := h.of_continuation
  exact absurd hc' (hother c')

/-- A coroutine object proceeds as long as its saved states and the first of them stay. -/
theorem continuation {c c' : Continuation Ref} (hsaved : c'.saved = c.saved)
    (hfirst : c'.first = c.first) : (HeapObject.continuation c).Proceeds (.continuation c') := by
  refine ⟨.continuation c c', fun d hd => ?_⟩
  cases hd
  exact ⟨c', rfl, hsaved, hfirst⟩

end HeapObject.Proceeds

namespace Machine

/-- A machine and one that running code makes of it. -/
structure Proceeds (m m' : Machine) : Prop extends Precedes m m' where
  /-- objects have only proceeded -/
  proceeds : ∀ r o, m.object? r = some o → ∃ o', m'.object? r = some o' ∧ o.Proceeds o'

namespace Proceeds

/-- Every machine proceeds to itself. -/
theorem refl (m : Machine) : m.Proceeds m := ⟨.refl m, fun _ o h => ⟨o, h, .refl o⟩⟩

/-- What running code makes of a machine in two runs it can make in one. -/
theorem trans {m m' m'' : Machine} (h : m.Proceeds m') (h' : m'.Proceeds m'') :
    m.Proceeds m'' := by
  refine ⟨h.toPrecedes.trans h'.toPrecedes, fun r o ho => ?_⟩
  obtain ⟨o', ho', he⟩ := h.proceeds r o ho
  obtain ⟨o'', ho'', he'⟩ := h'.proceeds r o' ho'
  exact ⟨o'', ho'', he.trans he'⟩

/-- Objects stay what they are. -/
theorem of_objects {m m' : Machine} (h : m.Precedes m')
    (hobjects : ∀ r o, m.object? r = some o → m'.object? r = some o) : m.Proceeds m' :=
  ⟨h, fun r o ho => ⟨o, hobjects r o ho, .refl o⟩⟩

/-- A machine with the same heap, classes and limits proceeds to one that initialized more. -/
theorem of_heap_eq {m m' : Machine} (hclasses : m'.classes = m.classes)
    (hnatives : m'.natives = m.natives) (hdepth : m'.maxDepth = m.maxDepth)
    (hsteps : m'.maxSteps = m.maxSteps) (hinit : ∀ c ∈ m.initialized, c ∈ m'.initialized)
    (hstrings : m'.strings = m.strings) (hheap : m'.heap = m.heap) : m.Proceeds m' :=
  .of_objects (.of_heap_eq hclasses hnatives hdepth hsteps hinit hstrings hheap) fun r o ho => by
    rw [object?, hheap]
    exact ho

/-- Running code may allocate. -/
theorem alloc (m : Machine) (o : HeapObject) : m.Proceeds (m.alloc o).2 :=
  .of_objects (.alloc m o) fun _ _ => object?_alloc_of_some

/-- Running code may replace an object by what it proceeds to. -/
theorem set {m : Machine} {r : Ref} {o : HeapObject}
    (h : ∀ o', m.object? r = some o' → o'.Proceeds o) :
    m.Proceeds { m with heap := m.heap.setIfInBounds r.index o } :=
  ⟨.set fun o' ho' => (h o' ho').1, fun _ _ => exists_object_set .refl h⟩

/-- Running code may intern a literal. -/
theorem intern (m : Machine) (s : String) : m.Proceeds (m.intern s).2 := by
  refine .of_objects (.intern m s) fun r o ho => ?_
  cases hs : m.strings.lookup s with
  | some r' =>
    rw [intern_of_some hs]
    exact ho
  | none =>
    rw [intern_of_none hs]
    exact object?_alloc_of_some ho

/-- A continuation keeps what it has saved. -/
theorem saved {m m' : Machine} (h : m.Proceeds m') {r : Ref} {c : Continuation Ref}
    (hc : m.object? r = some (.continuation c)) :
    ∃ c', m'.object? r = some (.continuation c') ∧ c'.saved = c.saved ∧ c'.first = c.first := by
  obtain ⟨o', ho', -, hsaved⟩ := h.proceeds r _ hc
  obtain ⟨c', rfl, hsame⟩ := hsaved c rfl
  exact ⟨c', ho', hsame⟩

end Proceeds

end Machine

/-! ## Sound machines -/

/-- The values that an object holds. -/
def HeapObject.values : HeapObject → List Value
  | .instance _ fields => fields.map (·.2)
  | .array _ values => values.toList
  | .methodState s => [s.lockState, s.locals, s.stack]
  | .data d => d.toList
  | _ => []

/-- The code that a method state belongs to. -/
def MethodState.key (s : MethodState) : FrameKey :=
  { owner := s.owner, id := s.id, version := s.version, point := s.point }

/-- Are the fields in increasing order of their names? -/
def FieldValues.Ordered (fields : FieldValues) : Prop :=
  fields.Pairwise fun f g => f.1.lt g.1 = true

/-- What holds of every object on the heap. -/
structure HeapObject.Sound (K : FrameKey → Prop) (o : HeapObject) : Prop where
  /-- values are values -/
  values : ∀ v ∈ o.values, v ≠ .top
  /-- fields are in order -/
  ordered : ∀ owner fields, o = .instance owner fields → FieldValues.Ordered fields
  /-- states belong to what they may -/
  key : ∀ s, o = .methodState s → K s.key

/-- What keys of method states and loaded methods are held to. -/
structure Discipline where
  /-- what saved states may belong to -/
  key : FrameKey → Prop
  /-- what the code of methods may be -/
  code : Class → Method → Prop

/-- What holds of every machine that a run leaves. -/
structure Machine.Sound (D : Discipline) (m : Machine) : Prop where
  /-- there is one string for each text -/
  interned : ∀ r s, m.object? r = some (.string s) ↔ m.strings.lookup s = some r
  /-- there is one stream -/
  stream : ∀ r, m.object? r = some .printStream ↔ r = printStream
  /-- objects are sound -/
  objects : ∀ r o, m.object? r = some o → o.Sound D.key
  /-- static fields hold values -/
  statics : ∀ e ∈ m.statics, e.2 ≠ .top
  /-- states are made by one method only -/
  creates : ∀ ref, m.natives.lookup ref = some .createState → ref = Interface.MethodState.create
  /-- code is as it may be -/
  code : ∀ c ∈ m.classes, ∀ method ∈ c.methods, D.code c method

namespace FieldValues

/-- Member names are ordered transitively. -/
theorem lt_trans {a b c : MemberName} (h : a.lt b = true) (h' : b.lt c = true) :
    a.lt c = true := by
  simp only [MemberName.lt, decide_eq_true_eq] at *
  exact String.lt_trans h h'

/-- Of two member names one comes first. -/
theorem lt_of_not {a b : MemberName} (h : ¬ a.lt b = true) (hne : a ≠ b) : b.lt a = true := by
  simp only [MemberName.lt, decide_eq_true_eq] at *
  rcases Decidable.em (b.text < a.text) with hlt | hge
  · exact hlt
  · refine absurd ?_ hne
    have htext := String.le_antisymm (String.not_lt.mp hge) (String.not_lt.mp h)
    cases a
    cases b
    simp_all

/-- A field after setting one is the one set or was there before. -/
theorem mem_set {fields : FieldValues} {name : MemberName} {v : Value} {f : MemberName × Value}
    (h : f ∈ set fields name v) : f = (name, v) ∨ f ∈ fields := by
  induction fields with
  | nil => exact .inl (List.mem_singleton.mp h)
  | cons g rest ih =>
    obtain ⟨other, old⟩ := g
    simp only [set] at h
    split at h
    · exact List.mem_cons.mp h
    · split at h
      · rcases List.mem_cons.mp h with hf | hf
        · exact .inl hf
        · exact .inr (List.mem_cons_of_mem _ hf)
      · rcases List.mem_cons.mp h with hf | hf
        · exact .inr (hf ▸ List.mem_cons_self ..)
        · exact (ih hf).imp_right (List.mem_cons_of_mem _)

/-- Setting a field keeps the fields in order. -/
theorem Ordered.set {fields : FieldValues} (h : Ordered fields) (name : MemberName) (v : Value) :
    Ordered (fields.set name v) := by
  induction fields with
  | nil => exact List.pairwise_singleton _ _
  | cons g rest ih =>
    obtain ⟨other, old⟩ := g
    obtain ⟨hfirst, hrest⟩ := List.pairwise_cons.mp h
    simp only [FieldValues.set]
    -- the new field comes first, takes the place of the first one, or goes further on
    split
    · rename_i hlt
      refine List.pairwise_cons.mpr ⟨fun f hf => ?_, h⟩
      rcases List.mem_cons.mp hf with rfl | hf
      · exact hlt
      · exact lt_trans hlt (hfirst f hf)
    · split
      · rename_i _ heq
        subst heq
        exact List.pairwise_cons.mpr ⟨hfirst, hrest⟩
      · rename_i hge hne
        refine List.pairwise_cons.mpr ⟨fun f hf => ?_, ih hrest⟩
        rcases mem_set hf with rfl | hf
        · exact lt_of_not hge hne
        · exact hfirst f hf

/-- Adding a field that is new keeps the fields in order. -/
theorem Ordered.setNew {fields : FieldValues} (h : Ordered fields) (name : MemberName)
    (v : Value) : Ordered (fields.setNew name v) := by
  simp only [FieldValues.setNew]
  split
  · exact h
  · exact h.set name v

end FieldValues

namespace HeapObject.Sound

variable {K : FrameKey → Prop}

/-- Objects that hold no values and are no method states are sound. -/
theorem of_values_nil {o : HeapObject} (h : o.values = []) (hinst : ∀ c f, o ≠ .instance c f)
    (hstate : ∀ s, o ≠ .methodState s) : o.Sound K where
  values := fun v hv => by rw [h] at hv; cases hv
  ordered := fun c f he => absurd he (hinst c f)
  key := fun s he => absurd he (hstate s)

/-- String objects hold no values, so they are sound. -/
theorem string (s : String) : (HeapObject.string s).Sound K :=
  of_values_nil rfl (fun _ _ => nofun) (fun _ => nofun)

/-- Coroutine objects hold no values, so they are sound. -/
theorem continuation (c : Continuation Ref) : (HeapObject.continuation c).Sound K :=
  of_values_nil rfl (fun _ _ => nofun) (fun _ => nofun)

/-- Lists of monitors hold no values, so they are sound. -/
theorem lockState (l : LockState Ref) : (HeapObject.lockState l).Sound K :=
  of_values_nil rfl (fun _ _ => nofun) (fun _ => nofun)

theorem array {t : RefType} {vs : Array Value} (h : ∀ v ∈ vs, v ≠ .top) :
    (HeapObject.array t vs).Sound K where
  values := fun v hv => h v (by simpa [HeapObject.values] using hv)
  ordered := fun _ _ => nofun
  key := fun _ => nofun

/-- A data object is sound if no value of it is unusable. -/
theorem data {d : DataArrays} (h : ∀ v ∈ (HeapObject.data d).values, v ≠ .top) :
    (HeapObject.data d).Sound K where
  values := h
  ordered := fun _ _ => nofun
  key := fun _ => nofun

/-- An instance is sound if its fields are in order and none is `top`. -/
theorem instance_ {owner : ClassName} {fields : FieldValues} (h : ∀ f ∈ fields, f.2 ≠ .top)
    (hordered : FieldValues.Ordered fields) : (HeapObject.instance owner fields).Sound K where
  values := fun v hv => by
    obtain ⟨f, hf, rfl⟩ := List.mem_map.mp hv
    exact h f hf
  ordered := fun c f he => by
    cases he
    exact hordered
  key := fun _ => nofun

/-- No field of a sound instance is `top`. -/
theorem field_ne {owner : ClassName} {fields : FieldValues}
    (h : (HeapObject.instance owner fields).Sound K) : ∀ f ∈ fields, f.2 ≠ .top :=
  fun _ hf => h.values _ (List.mem_map_of_mem hf)

/-- No element of a sound array is `top`. -/
theorem element_ne {t : RefType} {vs : Array Value} (h : (HeapObject.array t vs).Sound K) :
    ∀ v ∈ vs, v ≠ .top :=
  fun v hv => h.values v (by simpa [HeapObject.values] using hv)

/-- An instance with one field set. -/
theorem setField {owner : ClassName} {fields : FieldValues} {v : Value}
    (h : (HeapObject.instance owner fields).Sound K) (name : MemberName) (hv : v ≠ .top) :
    (HeapObject.instance owner (fields.set name v)).Sound K := by
  refine instance_ (fun f hf => ?_) ((h.ordered _ _ rfl).set name v)
  rcases FieldValues.mem_set hf with rfl | hf
  · exact hv
  · exact h.field_ne f hf

end HeapObject.Sound

namespace Machine.Sound

/-- A machine without classes is sound. -/
theorem new (D : Discipline) : Machine.new.Sound D where
  interned := fun r s => by
    refine ⟨fun h => ?_, nofun⟩
    rcases r with ⟨_ | n⟩ <;> simp [object?, Machine.new] at h
  stream := fun r => by
    rcases r with ⟨_ | n⟩
    · exact ⟨fun _ => rfl, fun _ => rfl⟩
    · simp [object?, Machine.new, printStream]
  objects := fun r o ho => by
    rcases r with ⟨_ | n⟩
    · cases ho
      exact .of_values_nil rfl (fun _ _ => nofun) (fun _ => nofun)
    · simp [object?, Machine.new] at ho
  statics := fun e he => by
    rw [List.mem_singleton.mp he]
    nofun
  creates := fun ref h => by
    have hstandard : ∀ e ∈ standardNatives, e.2 = .createState →
        e.1 = Interface.MethodState.create := by decide
    obtain ⟨before, after, hsplit, -⟩ := List.lookup_eq_some_iff.mp h
    refine hstandard (ref, .createState) ?_ rfl
    rw [show standardNatives = _ from hsplit]
    exact List.mem_append_right _ (List.mem_cons_self ..)
  code := nofun

variable {D : Discipline} {m : Machine}

/-- A new object that is no string and no print stream. -/
theorem alloc (h : m.Sound D) {o : HeapObject} (ho : o.Sound D.key) (hstring : ∀ s, o ≠ .string s)
    (hstream : o ≠ .printStream) : (m.alloc o).2.Sound D where
  interned := fun r s => by
    rw [object?_alloc]
    by_cases hr : r.index = m.heap.size
    · rw [if_pos hr]
      refine ⟨fun he => absurd (Option.some.inj he) (hstring s), fun he => ?_⟩
      have := object?_lt ((h.interned r s).mpr he)
      omega
    · rw [if_neg hr]
      exact h.interned r s
  stream := fun r => by
    rw [object?_alloc]
    by_cases hr : r.index = m.heap.size
    · rw [if_pos hr]
      refine ⟨fun he => absurd (Option.some.inj he) hstream, fun he => ?_⟩
      have := object?_lt ((h.stream r).mpr he)
      omega
    · rw [if_neg hr]
      exact h.stream r
  objects := fun r o' ho' => by
    rw [object?_alloc] at ho'
    split at ho'
    · cases ho'
      exact ho
    · exact h.objects r o' ho'
  statics := h.statics
  creates := h.creates
  code := h.code

/-- Interning keeps a machine sound. -/
theorem intern (h : m.Sound D) (s : String) : (m.intern s).2.Sound D := by
  cases hs : m.strings.lookup s with
  | some r =>
    rw [intern_of_some hs]
    exact h
  | none =>
    rw [intern_of_none hs]
    refine ⟨fun r s' => ?_, fun r => ?_, fun r o ho => ?_, h.statics, h.creates, h.code⟩
    · -- The new string is the only one under its text, because no string had the text before.
      show (m.alloc (.string s)).2.object? r = _ ↔ _
      rw [object?_alloc]
      by_cases hs' : s' = s
      · subst hs'
        simp only [List.lookup, beq_self_eq_true]
        by_cases hr : r.index = m.heap.size
        · rw [if_pos hr]
          refine ⟨fun _ => ?_, fun _ => rfl⟩
          rw [← hr]
        · rw [if_neg hr, h.interned, hs]
          refine ⟨nofun, fun he => ?_⟩
          cases he
          exact absurd rfl hr
      · simp only [List.lookup, beq_false_of_ne hs']
        by_cases hr : r.index = m.heap.size
        · rw [if_pos hr]
          refine ⟨fun he => ?_, fun he => ?_⟩
          · cases he
            exact absurd rfl hs'
          · have := object?_lt ((h.interned r s').mpr he)
            omega
        · rw [if_neg hr]
          exact h.interned r s'
    · show (m.alloc (.string s)).2.object? r = _ ↔ _
      rw [object?_alloc]
      by_cases hr : r.index = m.heap.size
      · rw [if_pos hr]
        refine ⟨nofun, fun he => ?_⟩
        have := object?_lt ((h.stream r).mpr he)
        omega
      · rw [if_neg hr]
        exact h.stream r
    · have ho' : (m.alloc (.string s)).2.object? r = some o := ho
      rw [object?_alloc] at ho'
      split at ho'
      · cases ho'
        exact .string s
      · exact h.objects r o ho'

/-- An object that is replaced by what it can become. -/
theorem set (h : m.Sound D) {r : Ref} {o : HeapObject}
    (hevolves : ∀ o', m.object? r = some o' → o'.Evolves o)
    (ho : ∀ o', m.object? r = some o' → o.Sound D.key) :
    ({ m with heap := m.heap.setIfInBounds r.index o } : Machine).Sound D where
  interned := fun r' s => by
    rw [object?_set]
    by_cases hr : r' = r
    · subst hr
      rw [if_pos rfl, ← h.interned]
      cases hobj : m.object? r' with
      | none => simp
      | some o' =>
        have he := hevolves o' hobj
        simp only [Option.map_some, Option.some.injEq]
        exact ⟨fun heq => (heq ▸ he).to_string, fun heq => (heq ▸ he).of_string⟩
    · rw [if_neg hr]
      exact h.interned r' s
  stream := fun r' => by
    rw [object?_set]
    by_cases hr : r' = r
    · subst hr
      rw [if_pos rfl, ← h.stream]
      cases hobj : m.object? r' with
      | none => simp
      | some o' =>
        have he := hevolves o' hobj
        simp only [Option.map_some, Option.some.injEq]
        exact ⟨fun heq => (heq ▸ he).to_printStream, fun heq => (heq ▸ he).of_printStream⟩
    · rw [if_neg hr]
      exact h.stream r'
  objects := fun r' o' ho' => by
    rw [object?_set] at ho'
    split at ho'
    · cases hobj : m.object? r with
      | none =>
        rw [hobj] at ho'
        cases ho'
      | some o'' =>
        rw [hobj] at ho'
        cases ho'
        exact ho o'' hobj
    · exact h.objects r' o' ho'
  statics := h.statics
  creates := h.creates
  code := h.code

/-- Changes that leave heap, strings, static fields and code alone. -/
theorem of_heap_eq {m' : Machine} (h : m.Sound D) (hheap : m'.heap = m.heap)
    (hstrings : m'.strings = m.strings) (hstatics : ∀ e ∈ m'.statics, e.2 ≠ .top)
    (hnatives : m'.natives = m.natives) (hclasses : m'.classes = m.classes) : m'.Sound D where
  interned := fun r s => by
    rw [object?, hheap, hstrings]
    exact h.interned r s
  stream := fun r => by
    rw [object?, hheap]
    exact h.stream r
  objects := fun r o ho => h.objects r o (by rw [object?, ← hheap]; exact ho)
  statics := hstatics
  creates := by
    rw [hnatives]
    exact h.creates
  code := by
    rw [hclasses]
    exact h.code

end Machine.Sound

end Resumption
