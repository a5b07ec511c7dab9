import Resumption.Proofs.Analysis.Bounding
import Resumption.Proofs.Coroutine.Reached
import Resumption.Proofs.Instrument.Saving
import Resumption.Proofs.Objects.Graphs

/-!
# Snapshots carry coroutines to other machines

The frames of a coroutine are captured from its heap, written, read onto another machine, and put on
its heap as saved states. What is captured from there again is what was captured before, up to the
places of objects (`Coroutine.deserialize_serialize`):

* frames that were captured hold references, and list where the continuation is
  (`captureFrame_captured`);
* writing and reading renames the references in them, and the continuation with them, so they are
  still such frames (`SavedData.Matches.renamed`);
* such a frame is captured as it is from the state that was made for it (`captureFrame_of_holds`).

That every frame finds its code is where it matters that the coroutine was reached by running
suspendable code: each key on its heap is one that the classes list.
-/

namespace Resumption

/-! ## Frames with references renamed -/

/-- The same numbers and places of the continuation, and objects that are renamed. -/
structure SavedData.Renamed (f : Ref → Option Ref) (d d' : SavedData Value) : Prop where
  /-- numbers are the same -/
  ints : d'.ints = d.ints
  /-- numbers are the same -/
  longs : d'.longs = d.longs
  /-- patterns are the same -/
  floats : d'.floats = d.floats
  /-- patterns are the same -/
  doubles : d'.doubles = d.doubles
  /-- the handle is at the same places -/
  handles : d'.handles = d.handles
  /-- references are renamed -/
  objects : List.Forall₂ (Value.Renamed f) d.objects d'.objects

/-- The same key, and renamed monitors, locals and stack. -/
structure SavedFrame.Renamed (f : Ref → Option Ref) (frame frame' : SavedFrame Value) : Prop where
  /-- it belongs to the same point -/
  key : frame'.key = frame.key
  /-- monitors are renamed -/
  monitors : List.Forall₂ (Value.Renamed f) frame.monitors frame'.monitors
  /-- variables are renamed -/
  locals : frame.locals.Renamed f frame'.locals
  /-- operands are renamed -/
  stack : frame.stack.Renamed f frame'.stack

/-! ## Frames that can be captured -/

/-- The objects are references, and the handles are the places of the continuation. -/
structure SavedData.Captured (handle : Ref) (d : SavedData Value) : Prop where
  /-- objects are references -/
  references : ∀ v ∈ d.objects, v.isReference = true
  /-- the handle is noted wherever it is -/
  handles : d.handles = (d.objects.zipIdx.filter (·.1 = .ref handle)).map (·.2)

/-- The monitors are objects, and locals and stack can be captured. -/
structure SavedFrame.Captured (handle : Ref) (f : SavedFrame Value) : Prop where
  /-- monitors are references -/
  monitors : ∀ v ∈ f.monitors, ∃ r, v = .ref r
  /-- the variables are as they were captured -/
  locals : f.locals.Captured handle
  /-- the operands are as they were captured -/
  stack : f.stack.Captured handle

namespace SavedData

variable {handle handle' : Ref} {f : Ref → Option Ref} {d d' : SavedData Value}

/-- The places of the handle are those where it is. -/
theorem Captured.mem_handles (h : d.Captured handle) {i : Nat} :
    i ∈ d.handles ↔ d.objects[i]? = some (.ref handle) := by
  rw [h.handles, List.mem_map]
  constructor
  · rintro ⟨x, hx, rfl⟩
    obtain ⟨hmem, heq⟩ := List.mem_filter.mp hx
    rw [List.mem_zipIdx_iff_getElem?.mp hmem, of_decide_eq_true heq]
  · intro hi
    exact ⟨(.ref handle, i), List.mem_filter.mpr
      ⟨List.mem_zipIdx_iff_getElem?.mpr hi, decide_eq_true rfl⟩, rfl⟩

/-- The places of the handle are places of objects. -/
theorem Captured.inRange (h : d.Captured handle) : d.InRange := by
  intro i hi
  exact (List.getElem?_eq_some_iff.mp (h.mem_handles.mp hi)).1

/-- A renaming that is injective finds the continuation at the same places. -/
theorem handles_renamed (hinjective : ∀ r₁ r₂ r', f r₁ = some r' → f r₂ = some r' → r₁ = r₂)
    (hcontinuation : f handle = some handle') {xs ys : List Value}
    (h : List.Forall₂ (Value.Renamed f) xs ys) (n : Nat) :
    ((ys.zipIdx n).filter (·.1 = .ref handle')).map (·.2) =
      ((xs.zipIdx n).filter (·.1 = .ref handle)).map (·.2) := by
  induction h generalizing n with
  | nil => rfl
  | @cons x y xs ys hxy _ ih =>
    -- the handle is the only object that is renamed to the new handle
    have hsame : (y = .ref handle') ↔ (x = .ref handle) := by
      constructor
      · rintro rfl
        cases x with
        | ref r =>
          obtain ⟨r', hr, heq⟩ := hxy
          cases heq
          rw [hinjective r handle handle' hr hcontinuation]
        | _ => cases hxy
      · rintro rfl
        obtain ⟨r', hr, rfl⟩ := hxy
        rw [hcontinuation] at hr
        cases hr
        rfl
    simp only [List.zipIdx_cons, List.filter_cons, hsame]
    split
    · simp only [List.map_cons, ih]
    · exact ih (n + 1)

/-- **Captured data stays captured.** The continuation is put back in its places, where it was
before, so all objects are renamed. -/
theorem Matches.renamed (hinjective : ∀ r₁ r₂ r', f r₁ = some r' → f r₂ = some r' → r₁ = r₂)
    (hcontinuation : f handle = some handle') (h : d.Matches (Value.Renamed f) (.ref handle') d')
    (hd : d.Captured handle) : d.Renamed f d' ∧ d'.Captured handle' := by
  have hobjects : List.Forall₂ (Value.Renamed f) d.objects d'.objects := by
    refine List.forall₂_iff_get.mpr ⟨h.length.symm, fun i hi hi' => ?_⟩
    have hat := h.objects i _ _ (List.getElem?_eq_getElem hi) (List.getElem?_eq_getElem hi')
    split at hat
    · rename_i hmem
      have hx := hd.mem_handles.mp hmem
      rw [List.getElem?_eq_getElem hi] at hx
      rw [List.get_eq_getElem, List.get_eq_getElem, Option.some.inj hx, hat]
      exact ⟨handle', hcontinuation, rfl⟩
    · exact hat
  refine ⟨⟨h.ints, h.longs, h.floats, h.doubles, h.handles, hobjects⟩, fun y hy => ?_, ?_⟩
  · obtain ⟨x, hx, hxy⟩ := (mem_of_forall₂ hobjects).2 y hy
    have href := hd.references x hx
    cases x with
    | ref r =>
      obtain ⟨r', -, rfl⟩ := hxy
      rfl
    | null =>
      cases hxy
      rfl
    | _ => cases href
  · rw [h.handles, hd.handles]
    exact (handles_renamed hinjective hcontinuation hobjects 0).symm

end SavedData

/-- A frame that is read back is the one that was written, renamed. -/
theorem SavedFrame.Matches.renamed {handle handle' : Ref} {f : Ref → Option Ref}
    {frame frame' : SavedFrame Value}
    (hinjective : ∀ r₁ r₂ r', f r₁ = some r' → f r₂ = some r' → r₁ = r₂)
    (hcontinuation : f handle = some handle')
    (h : frame.Matches (Value.Renamed f) (.ref handle') frame') (hframe : frame.Captured handle) :
    frame.Renamed f frame' ∧ frame'.Captured handle' := by
  obtain ⟨hlocals, hlocals'⟩ := h.locals.renamed hinjective hcontinuation hframe.locals
  obtain ⟨hstack, hstack'⟩ := h.stack.renamed hinjective hcontinuation hframe.stack
  refine ⟨⟨h.key, h.monitors, hlocals, hstack⟩, fun v hv => ?_, hlocals', hstack'⟩
  obtain ⟨w, hw, hwv⟩ := (mem_of_forall₂ h.monitors).2 v hv
  obtain ⟨r, rfl⟩ := hframe.monitors w hw
  obtain ⟨r', -, rfl⟩ := hwv
  exact ⟨r', rfl⟩

namespace Coroutine

variable {c c' : Coroutine} {m m' : Machine} {D : Discipline} {handle : Ref}

/-! ## Capturing -/

/-- An element of a wanted kind. -/
def wanted {α : Type} (want : Value → Option α) (v : Value) : Except RunError α :=
  match want v with
  | some a => .ok a
  | none => .error (.badReference (.unexpectedSaved v))

/-- The elements of an array are read one by one. -/
theorem elements_array {α : Type} (want : Value → Option α) {r : Ref} {type : RefType}
    {values : Array Value} (h : m.object? r = some (.array type values)) :
    elements m want (.ref r) = values.toList.mapM (wanted want) := by
  simp only [elements, objectAt_of_some h]
  rfl

/-- Captured elements are those of an array that is there, or there are none. -/
theorem elements_inv {α : Type} {want : Value → Option α} {array : Value} {xs : List α}
    (h : elements m want array = .ok xs) :
    (array = .null ∧ xs = []) ∨ ∃ r type values, array = .ref r ∧
      m.object? r = some (.array type values) ∧ values.toList.mapM (wanted want) = .ok xs := by
  cases array with
  | null =>
    cases h
    exact .inl ⟨rfl, rfl⟩
  | ref r =>
    cases ho : m.object? r with
    | none =>
      simp only [elements, Machine.objectAt, ho] at h
      cases h
    | some o =>
      cases o with
      | array type values =>
        rw [elements_array want ho] at h
        exact .inr ⟨r, type, values, rfl, ho, h⟩
      | _ =>
        simp only [elements, Machine.objectAt, ho] at h
        cases h
  | _ => cases h

/-- All elements that are read are of the sort that is wanted. -/
theorem elements_wanted {α : Type} {want : Value → Option α} {array : Value} {xs : List α}
    (h : elements m want array = .ok xs) : ∀ x ∈ xs, ∃ v, want v = some x := by
  intro x hx
  rcases elements_inv h with ⟨-, rfl⟩ | ⟨r, type, values, -, -, hmap⟩
  · cases hx
  · obtain ⟨v, -, hv⟩ := (mem_of_forall₂ (mapM_ok_iff.mp hmap)).2 x hx
    unfold wanted at hv
    split at hv
    · rename_i a ha
      cases hv
      exact ⟨v, ha⟩
    · cases hv

/-- All elements of an array that is held are captured, if all are wanted. -/
theorem elements_of_holds {α : Type} {want : Value → Option α} {array : Value} (g : α → Value)
    {xs : List α} (h : m.HoldsArray array (xs.map g)) (hwant : ∀ x ∈ xs, want (g x) = some x) :
    elements m want array = .ok xs := by
  rcases h with ⟨hempty, rfl⟩ | ⟨r, type, -, rfl, ho⟩
  · rw [List.map_eq_nil_iff.mp hempty]
    rfl
  · rw [elements_array want ho, mapM_ok_iff, List.forall₂_map_left_iff]
    refine List.forall₂_same.mpr fun x hx => ?_
    simp only [wanted, hwant x hx]

/-- Captured values are references, and the handle is noted. -/
theorem captureData_captured {v : Value} {d : SavedData Value} (h : c.captureData v = .ok d) :
    d.Captured c.continuation := by
  unfold captureData at h
  split at h
  · cases h
    exact ⟨List.forall_mem_nil _, rfl⟩
  · obtain ⟨o, -, h⟩ := Except.bind_ok.mp h
    split at h
    · obtain ⟨objects, hobjects, h⟩ := Except.bind_ok.mp h
      obtain ⟨ints, -, h⟩ := Except.bind_ok.mp h
      obtain ⟨longs, -, h⟩ := Except.bind_ok.mp h
      obtain ⟨floats, -, h⟩ := Except.bind_ok.mp h
      obtain ⟨doubles, -, h⟩ := Except.bind_ok.mp h
      cases h
      refine ⟨fun v hv => ?_, rfl⟩
      obtain ⟨w, hw⟩ := elements_wanted hobjects v hv
      split at hw
      · cases hw
        assumption
      · cases hw
    · cases h
  · cases h

/-- Captured monitors are references. -/
theorem captureMonitors_captured {v : Value} {monitors : List Value}
    (h : c.captureMonitors v = .ok monitors) : ∀ w ∈ monitors, ∃ r, w = .ref r := by
  unfold captureMonitors at h
  split at h
  · obtain ⟨o, -, h⟩ := Except.bind_ok.mp h
    split at h
    · cases h
      intro w hw
      obtain ⟨r, -, rfl⟩ := List.mem_map.mp hw
      exact ⟨r, rfl⟩
    · cases h
  · cases h
    exact List.forall_mem_nil _

/-- What a captured frame is, and whose key it has. -/
theorem captureFrame_captured {r : Ref} {f : SavedFrame Value} (h : c.captureFrame r = .ok f) :
    f.Captured c.continuation ∧ ∃ s, c.machine.object? r = some (.methodState s) ∧
      f.key = { owner := s.owner, id := s.id, version := s.version, point := s.point } := by
  obtain ⟨o, ho, h⟩ := Except.bind_ok.mp h
  split at h
  · obtain ⟨monitors, hmonitors, h⟩ := Except.bind_ok.mp h
    obtain ⟨locals, hlocals, h⟩ := Except.bind_ok.mp h
    obtain ⟨stack, hstack, h⟩ := Except.bind_ok.mp h
    cases h
    exact ⟨⟨captureMonitors_captured hmonitors, captureData_captured hlocals,
      captureData_captured hstack⟩, _, objectAt_ok ho, rfl⟩
  · cases h

end Coroutine

/-! ## Saved states that were made for frames -/

namespace Machine

/-- Is this an object that holds the data? -/
def HoldsSaved (m : Machine) (v : Value) (d : SavedData Value) : Prop :=
  ∃ r a, v = .ref r ∧ m.object? r = some (.data a) ∧ m.HoldsArray a.ints (d.ints.map .int) ∧
    m.HoldsArray a.longs (d.longs.map .long) ∧ m.HoldsArray a.floats (d.floats.map .float) ∧
    m.HoldsArray a.doubles (d.doubles.map .double) ∧ m.HoldsArray a.objects d.objects

/-- Is this a saved state for the frame? -/
def HoldsFrame (m : Machine) (r : Ref) (f : SavedFrame Value) : Prop :=
  ∃ locks locals stack, m.object? r = some (.methodState
      { owner := f.key.owner, id := f.key.id, version := f.key.version, point := f.key.point
        lockState := .ref locks, locals, stack }) ∧
    m.object? locks = some (.lockState ⟨f.monitors.filterMap Value.ref?⟩) ∧
    m.HoldsSaved locals f.locals ∧ m.HoldsSaved stack f.stack

/-- All objects but continuations are what they were. -/
def KeepsAll (m m' : Machine) : Prop :=
  ∀ r o, (∀ k, o ≠ .continuation k) → m.object? r = some o → m'.object? r = some o

variable {m m' : Machine} {r : Ref}

/-- What only adds to a machine keeps everything that was there. -/
theorem Adds.keepsAll (h : m.Adds [] m') : m.KeepsAll m' := fun _ _ _ ho => h.same ho

/-- A continuation may be replaced. -/
theorem keepsAll_put {k : Continuation Ref} (h : m.object? r = some (.continuation k))
    (k' : Continuation Ref) : m.KeepsAll (m.put r (.continuation k')) := by
  intro r' o hne ho
  rw [object?_put_of_ne]
  · exact ho
  · rintro rfl
    exact hne k (Option.some.inj (ho.symm.trans h))

/-- An array of saved values stays one. -/
theorem HoldsArray.keepsAll {v : Value} {values : List Value} (h : m.HoldsArray v values)
    (hkeeps : m.KeepsAll m') : m'.HoldsArray v values := by
  rcases h with h | ⟨r, type, hne, hv, ho⟩
  · exact .inl h
  · exact .inr ⟨r, type, hne, hv, hkeeps r _ (by simp) ho⟩

/-- Saved values stay where they are. -/
theorem HoldsSaved.keepsAll {v : Value} {d : SavedData Value} (h : m.HoldsSaved v d)
    (hkeeps : m.KeepsAll m') : m'.HoldsSaved v d := by
  obtain ⟨r, a, hv, ho, hints, hlongs, hfloats, hdoubles, hobjects⟩ := h
  exact ⟨r, a, hv, hkeeps r _ (by simp) ho, hints.keepsAll hkeeps, hlongs.keepsAll hkeeps,
    hfloats.keepsAll hkeeps, hdoubles.keepsAll hkeeps, hobjects.keepsAll hkeeps⟩

/-- A saved state stays what it is. -/
theorem HoldsFrame.keepsAll {f : SavedFrame Value} (h : m.HoldsFrame r f)
    (hkeeps : m.KeepsAll m') : m'.HoldsFrame r f := by
  obtain ⟨locks, locals, stack, ho, hlocks, hlocals, hstack⟩ := h
  exact ⟨locks, locals, stack, hkeeps r _ (by simp) ho, hkeeps locks _ (by simp) hlocks,
    hlocals.keepsAll hkeeps, hstack.keepsAll hkeeps⟩

end Machine

namespace Coroutine

variable {c c' : Coroutine} {m m' : Machine} {D : Discipline} {handle : Ref} {k : Continuation Ref}

/-- The array that is made holds the values. -/
theorem restoreArray_holds (m : Machine) (element : FieldType) (values : List Value) :
    m.Adds [] (restoreArray m element values).2 ∧
      (restoreArray m element values).2.HoldsArray (restoreArray m element values).1 values := by
  unfold restoreArray
  split
  · rename_i hempty
    exact ⟨.refl m, .inl ⟨List.isEmpty_iff.mp hempty, rfl⟩⟩
  · rename_i hne
    exact ⟨.alloc m _, .inr ⟨_, _, fun hempty => hne (List.isEmpty_iff.mpr hempty), rfl,
      Machine.object?_alloc_self m _⟩⟩

/-- The object that is made holds the saved values. -/
theorem restoreData_holds (m : Machine) (d : SavedData Value) :
    m.Adds [] (restoreData m d).2 ∧ (restoreData m d).2.HoldsSaved (restoreData m d).1 d := by
  obtain ⟨ha₁, hv₁⟩ := restoreArray_holds m .int (d.ints.map .int)
  generalize hm₁ : (restoreArray m .int (d.ints.map .int)) = x₁ at ha₁ hv₁
  obtain ⟨ha₂, hv₂⟩ := restoreArray_holds x₁.2 .long (d.longs.map .long)
  generalize hm₂ : (restoreArray x₁.2 .long (d.longs.map .long)) = x₂ at ha₂ hv₂
  obtain ⟨ha₃, hv₃⟩ := restoreArray_holds x₂.2 .float (d.floats.map .float)
  generalize hm₃ : (restoreArray x₂.2 .float (d.floats.map .float)) = x₃ at ha₃ hv₃
  obtain ⟨ha₄, hv₄⟩ := restoreArray_holds x₃.2 .double (d.doubles.map .double)
  generalize hm₄ : (restoreArray x₃.2 .double (d.doubles.map .double)) = x₄ at ha₄ hv₄
  obtain ⟨ha₅, hv₅⟩ := restoreArray_holds x₄.2 (.object .object) d.objects
  generalize hm₅ : (restoreArray x₄.2 (.object .object) d.objects) = x₅ at ha₅ hv₅
  have heq : restoreData m d = (.ref (x₅.2.alloc (.data ⟨x₁.1, x₂.1, x₃.1, x₄.1, x₅.1⟩)).1,
      (x₅.2.alloc (.data ⟨x₁.1, x₂.1, x₃.1, x₄.1, x₅.1⟩)).2) := by
    simp only [restoreData, hm₁, hm₂, hm₃, hm₄, hm₅]
  rw [heq]
  have ha₆ := Machine.Adds.alloc x₅.2 (.data ⟨x₁.1, x₂.1, x₃.1, x₄.1, x₅.1⟩)
  -- each array is there until the end
  refine ⟨((((ha₁.trans ha₂).trans ha₃).trans ha₄).trans ha₅).trans ha₆, _, _, rfl,
    Machine.object?_alloc_self _ _, ?_, ?_, ?_, ?_, hv₅.adds ha₆⟩
  · exact hv₁.adds ((((ha₂.trans ha₃).trans ha₄).trans ha₅).trans ha₆)
  · exact hv₂.adds (((ha₃.trans ha₄).trans ha₅).trans ha₆)
  · exact hv₃.adds ((ha₄.trans ha₅).trans ha₆)
  · exact hv₄.adds (ha₅.trans ha₆)

/-- The state that is made holds the frame. -/
theorem restoreFrame_holds (m : Machine) (f : SavedFrame Value) :
    m.Adds [] (restoreFrame m f).2 ∧ (restoreFrame m f).2.HoldsFrame (restoreFrame m f).1 f := by
  have ha₁ := Machine.Adds.alloc m (.lockState ⟨f.monitors.filterMap Value.ref?⟩)
  have hlocks := Machine.object?_alloc_self m (.lockState ⟨f.monitors.filterMap Value.ref?⟩)
  generalize hm₁ : m.alloc (.lockState ⟨f.monitors.filterMap Value.ref?⟩) = x₁ at ha₁ hlocks
  obtain ⟨ha₂, hlocals⟩ := restoreData_holds x₁.2 f.locals
  generalize hm₂ : restoreData x₁.2 f.locals = x₂ at ha₂ hlocals
  obtain ⟨ha₃, hstack⟩ := restoreData_holds x₂.2 f.stack
  generalize hm₃ : restoreData x₂.2 f.stack = x₃ at ha₃ hstack
  have heq : restoreFrame m f = x₃.2.alloc (.methodState
      { owner := f.key.owner, id := f.key.id, version := f.key.version, point := f.key.point
        lockState := .ref x₁.1, locals := x₂.1, stack := x₃.1 }) := by
    simp only [restoreFrame, hm₁, hm₂, hm₃]
  rw [heq]
  have ha₄ := Machine.Adds.alloc x₃.2 (.methodState
      { owner := f.key.owner, id := f.key.id, version := f.key.version, point := f.key.point
        lockState := .ref x₁.1, locals := x₂.1, stack := x₃.1 })
  exact ⟨((ha₁.trans ha₂).trans ha₃).trans ha₄, x₁.1, x₂.1, x₃.1, Machine.object?_alloc_self _ _,
    ((ha₂.trans ha₃).trans ha₄).same hlocks, hlocals.keepsAll (ha₃.trans ha₄).keepsAll,
    hstack.keepsAll ha₄.keepsAll⟩

/-- The states that are made hold the frames. -/
theorem restoreFrames_holds (m : Machine) (frames : List (SavedFrame Value)) :
    m.Adds [] (restoreFrames m frames).2 ∧
      List.Forall₂ (restoreFrames m frames).2.HoldsFrame (restoreFrames m frames).1 frames := by
  induction frames generalizing m with
  | nil => exact ⟨.refl m, .nil⟩
  | cons f frames ih =>
    obtain ⟨ha₁, hfirst⟩ := restoreFrame_holds m f
    obtain ⟨ha₂, hrest⟩ := ih (restoreFrame m f).2
    exact ⟨ha₁.trans ha₂, .cons (hfirst.keepsAll ha₂.keepsAll) hrest⟩

/-- What holds saved values is captured as them. -/
theorem captureData_of_holds {v : Value} {d : SavedData Value} (h : c.machine.HoldsSaved v d)
    (hd : d.Captured c.continuation) : c.captureData v = .ok d := by
  obtain ⟨r, a, rfl, ho, hints, hlongs, hfloats, hdoubles, hobjects⟩ := h
  have hobjects' : c.machine.HoldsArray a.objects (d.objects.map id) := by rwa [List.map_id]
  refine Except.bind_ok.mpr ⟨_, objectAt_of_some ho, Except.bind_ok.mpr ⟨d.objects, ?_,
    Except.bind_ok.mpr ⟨d.ints, ?_, Except.bind_ok.mpr ⟨d.longs, ?_, Except.bind_ok.mpr
    ⟨d.floats, ?_, Except.bind_ok.mpr ⟨d.doubles, ?_, ?_⟩⟩⟩⟩⟩⟩
  · exact elements_of_holds id hobjects' fun v hv => if_pos (hd.references v hv)
  · exact elements_of_holds .int hints fun _ _ => rfl
  · exact elements_of_holds .long hlongs fun _ _ => rfl
  · exact elements_of_holds .float hfloats fun _ _ => rfl
  · exact elements_of_holds .double hdoubles fun _ _ => rfl
  · rw [← hd.handles]
    rfl

/-- **Restored frames.** A state that was made for a frame is captured as that frame. -/
theorem captureFrame_of_holds {r : Ref} {f : SavedFrame Value} (h : c.machine.HoldsFrame r f)
    (hf : f.Captured c.continuation) : c.captureFrame r = .ok f := by
  obtain ⟨locks, locals, stack, ho, hlocks, hlocals, hstack⟩ := h
  have hmonitors : (f.monitors.filterMap Value.ref?).map Value.ref = f.monitors := by
    rw [List.map_filterMap]
    refine (List.filterMap_congr fun v hv => ?_).trans List.filterMap_some
    obtain ⟨r, rfl⟩ := hf.monitors v hv
    rfl
  simp only [captureFrame, captureMonitors, objectAt_of_some ho, objectAt_of_some hlocks,
    captureData_of_holds hlocals hf.locals, captureData_of_holds hstack hf.stack, hmonitors, bind,
    Except.bind, pure, Except.pure]

/-! ## Writing and reading -/

/-- The frames of a coroutine, outermost first. -/
def frames (c : Coroutine) : Except RunError (List (SavedFrame Value)) := do
  (← c.state).saved.mapM c.captureFrame

/-- Without rules a frame is its only version. -/
theorem capture_empty (payload : Value) (frames : List (SavedFrame Value)) :
    SnapshotRules.empty.capture payload frames =
      .ok ⟨payload, frames.map fun f => ⟨[f]⟩⟩ := by
  have hversions : frames.mapM SnapshotRules.empty.versions =
      .ok (frames.map fun f => ⟨[f]⟩) := by
    rw [mapM_ok_iff, List.forall₂_map_right_iff]
    exact List.forall₂_same.mpr fun f _ => rfl
  rw [SnapshotRules.capture, hversions]
  rfl

/-- Without rules a frame is restored as it is, if it can be loaded. -/
theorem resolve_empty {loadable : FrameKey → Bool} {f : SavedFrame Value}
    (h : loadable f.key = true) : SnapshotRules.empty.resolve loadable ⟨[f]⟩ = .ok f := by
  simp only [SnapshotRules.resolve, SnapshotRules.resolveFrom, SnapshotRules.empty,
    SnapshotRules.search, List.contains_nil, bind, Except.bind, Bool.false_eq_true, if_false, h,
    if_true]
  rfl

/-- What was written if a coroutine was serialized. -/
theorem serialize_ok {bytes : List UInt8} (h : c.serialize .empty = .ok bytes) :
    ∃ k frames s, c.state = .ok k ∧ c.frames = .ok frames ∧
      Snapshot.write (ObjectFormat.writer c.machine c.continuation)
        ⟨.ref c.object, frames.map fun f => ⟨[f]⟩⟩ [] = .ok (bytes, s) := by
  obtain ⟨k, hk, h⟩ := Except.bind_ok.mp h
  obtain ⟨frames, hframes, h⟩ := Except.bind_ok.mp h
  obtain ⟨snapshot, hsnapshot, h⟩ := Except.bind_ok.mp (liftError_ok h)
  rw [capture_empty] at hsnapshot
  cases hsnapshot
  obtain ⟨⟨bytes', s⟩, hwritten, heq⟩ := Except.bind_ok.mp h
  cases heq
  exact ⟨k, frames, s, hk, Except.bind_ok.mpr ⟨k, hk, hframes⟩, hwritten⟩

end Coroutine

namespace Machine.Sound

variable {m : Machine} {D : Discipline}

/-- Sound machines can be written. -/
theorem writable (hm : m.Sound D) {handle : Ref} {k : Continuation Ref}
    (hk : m.object? handle = some (.continuation k)) (hsize : m.heap.size ≤ 256 ^ 4) :
    m.Writable handle where
  strings r r' s hr hr' :=
    Option.some.inj (((hm.interned r s).mp hr).symm.trans ((hm.interned r' s).mp hr'))
  stream := hm.stream
  ordered r owner fields hr := (hm.objects r _ hr).ordered owner fields rfl
  continuation := by
    rintro rfl
    rw [(hm.stream _).mpr rfl] at hk
    cases hk
  size := hsize

/-- Sound machines can be read onto, with a new continuation. -/
theorem readable (hm : m.Sound D) (k : Continuation Ref) :
    (m.alloc (.continuation k)).2.Readable (m.alloc (.continuation k)).1 where
  interned s r hs := object?_alloc_of_some ((hm.interned r s).mpr hs)
  stream := object?_alloc_of_some ((hm.stream _).mpr rfl)
  continuation := ⟨k, object?_alloc_self m _⟩

end Machine.Sound

namespace Coroutine

variable {c : Coroutine} {m : Machine} {D D' : Discipline} {bytes : List UInt8}

/-- Is the second coroutine the first one with its objects at other places? -/
structure Relocated (f : Ref → Option Ref) (c c' : Coroutine) : Prop where
  /-- objects correspond to one another -/
  heap : c.machine.Renaming c'.machine c.continuation c'.continuation f
  /-- so do the instances whose entry point runs -/
  object : f c.object = some c'.object
  /-- and so do the saved frames -/
  frames : ∃ frames frames', c.frames = .ok frames ∧ c'.frames = .ok frames' ∧
    List.Forall₂ (SavedFrame.Renamed f) frames frames'

/-- What was captured on one machine and written is read on another one with references renamed. -/
theorem read_captured {handle handle' object : Ref} {m m' : Machine} (hm : m.Writable handle)
    (hm' : m'.Readable handle') {frames : List (SavedFrame Value)}
    (hcaptured : ∀ frame ∈ frames, frame.Captured handle) {s : ObjectFormat.Written}
    (hwrite : Snapshot.write (ObjectFormat.writer m handle)
      ⟨.ref object, frames.map fun f => ⟨[f]⟩⟩ [] = .ok (bytes, s)) :
    ∃ object' frames' m'' f, m'.readSnapshot handle' bytes =
        .ok (⟨.ref object', frames'.map fun f => ⟨[f]⟩⟩, m'', []) ∧
      m''.Readable handle' ∧ m.Renaming m'' handle handle' f ∧ f object = some object' ∧
      List.Forall₂ (SavedFrame.Renamed f) frames frames' ∧
      ∀ frame ∈ frames', frame.Captured handle' := by
  have hrange : Snapshot.InRange
      (⟨.ref object, frames.map fun f => ⟨[f]⟩⟩ : Snapshot Value) := by
    intro v hv frame hframe
    obtain ⟨frame', hmem, rfl⟩ := List.mem_map.mp hv
    cases List.mem_singleton.mp hframe
    exact ⟨(hcaptured frame hmem).locals.inRange, (hcaptured frame hmem).stack.inRange⟩
  obtain ⟨⟨payload, versions⟩, t, hread, hstep, -, hmatches⟩ := Snapshot.readsBack_snapshot
    (ObjectFormat.pairing_inverts hm handle' bytes.length) hrange [] ⟨m', #[]⟩ bytes s []
    (ObjectFormat.InStep.start hm hm') hwrite (Nat.le_refl _)
  rw [List.append_nil] at hread
  have hplaces := hstep.isRenaming hm
  obtain ⟨object', hobject, hpayload⟩ := hmatches.payload
  cases hpayload
  -- each frame was its only version, and is so again
  have hframes : ∀ {frames : List (SavedFrame Value)} {versions : List (VersionedFrame Value)},
      (∀ frame ∈ frames, frame.Captured handle) →
      List.Forall₂ (VersionedFrame.Matches (Value.Renamed (ObjectFormat.image handle handle' s t))
        (.ref handle')) (frames.map fun f => ⟨[f]⟩) versions →
      ∃ frames' : List (SavedFrame Value), versions = frames'.map (fun f => ⟨[f]⟩) ∧
        List.Forall₂ (SavedFrame.Renamed (ObjectFormat.placed handle handle' s t)) frames frames' ∧
        ∀ frame ∈ frames', frame.Captured handle' := by
    intro frames
    induction frames with
    | nil =>
      intro versions _ h
      cases h
      exact ⟨[], rfl, .nil, List.forall_mem_nil _⟩
    | cons frame frames ih =>
      intro versions hcaptured h
      obtain ⟨hframe, hrest⟩ := List.forall_mem_cons.mp hcaptured
      rw [List.map_cons] at h
      obtain ⟨⟨representations⟩, versions, hfirst, hothers, rfl⟩ := List.forall₂_cons_left_iff.mp h
      obtain ⟨frame', _, hmatches, hnone, rfl⟩ := List.forall₂_cons_left_iff.mp hfirst
      cases hnone
      obtain ⟨frames', rfl, hrenamed, hcaptured'⟩ := ih hrest hothers
      obtain ⟨hsame, hcap⟩ := SavedFrame.Matches.renamed hplaces.injective hplaces.continuation
        (hmatches.mono fun _ _ hv => hv.mono hstep.placed_of_image) hframe
      exact ⟨frame' :: frames', rfl, .cons hsame hrenamed,
        List.forall_mem_cons.mpr ⟨hcap, hcaptured'⟩⟩
  obtain ⟨frames', hversions, hrenamed, hcaptured'⟩ := hframes hcaptured hmatches.frames
  cases hversions
  exact ⟨object', frames', t.machine, _, by rw [Machine.readSnapshot, hread]; rfl, hstep.machine,
    hplaces, hstep.placed_of_image _ _ hobject, hrenamed, hcaptured'⟩

/-- Coroutines on sound machines, if all their keys can be loaded on the other machine. -/
theorem deserialize_of_sound (hm : c.machine.Sound D) (hsize : c.machine.heap.size ≤ 256 ^ 4)
    (hbytes : c.serialize .empty = .ok bytes) (hm' : m.Sound D')
    (hkey : ∀ k, D.key k → isLoadable m.classes k = true) :
    ∃ c', deserialize m bytes .empty = .ok c' ∧ ∃ f, c.Relocated f c' := by
  obtain ⟨k, frames, s, hk, hframes, hwrite⟩ := serialize_ok hbytes
  have hcaptured : ∀ frame ∈ frames, frame.Captured c.continuation ∧ D.key frame.key := by
    intro frame hframe
    obtain ⟨k', hk', hmap⟩ := Except.bind_ok.mp hframes
    obtain ⟨r, -, hr⟩ := (mem_of_forall₂ (mapM_ok_iff.mp hmap)).2 frame hframe
    obtain ⟨hcaptured, state, hstate, hkeys⟩ := captureFrame_captured hr
    exact ⟨hcaptured, hkeys ▸ (hm.objects r _ hstate).key state rfl⟩
  obtain ⟨object', frames', m₁, f, hread, hreadable, hplaces, hobject, hrenamed, hcaptured'⟩ :=
    read_captured (hm.writable (state_ok_iff.mp hk) hsize) (hm'.readable .empty)
      (fun frame hframe => (hcaptured frame hframe).1) hwrite
  have hempty : (m.alloc (.continuation .empty)).2.Sound D' :=
    hm'.alloc (.continuation _) (by simp) (by simp)
  have hclasses : m₁.classes = m.classes := (ObjectFormat.readSnapshot_leads hempty hread).1.classes
  have hrestore : SnapshotRules.empty.restore (isLoadable m₁.classes)
      ⟨.ref object', frames'.map fun f => ⟨[f]⟩⟩ = .ok frames' := by
    rw [SnapshotRules.restore, mapM_ok_iff, List.forall₂_map_left_iff]
    refine List.forall₂_same.mpr fun frame' hframe' => resolve_empty ?_
    obtain ⟨frame, hframe, hsame⟩ := (mem_of_forall₂ hrenamed).2 frame' hframe'
    rw [hclasses, hsame.key]
    exact hkey _ (hcaptured frame hframe).2
  -- the states that are made for the frames
  obtain ⟨hadds, hholds⟩ := restoreFrames_holds m₁ frames'
  generalize hrestored : restoreFrames m₁ frames' = restored at hadds hholds
  obtain ⟨k', hk'⟩ := hreadable.continuation
  generalize hnew : (m.alloc (.continuation .empty)).1 = handle at *
  have hcontinuation : restored.2.object? handle = some (.continuation k') := hadds.same hk'
  have hkeeps := Machine.keepsAll_put hcontinuation (.ofSaved restored.1)
  generalize hc' : (⟨restored.2.put handle (.continuation (.ofSaved restored.1)), object', handle⟩ :
    Coroutine) = c'
  have hstate : c'.state = .ok (.ofSaved restored.1) := by
    subst hc'
    exact state_ok_iff.mpr (Machine.object?_put_self hcontinuation)
  refine ⟨c', ?_, f, ?_, ?_, frames, frames', hframes, ?_, hrenamed⟩
  · refine deserialize_ok_iff.mpr ⟨_, m₁, [], object', frames', hnew ▸ hread, rfl, hrestore, ?_⟩
    rw [hrestored, hnew]
    exact Except.bind_ok.mpr ⟨k', state_ok_iff.mpr hcontinuation, congrArg Except.ok hc'⟩
  · subst hc'
    refine { hplaces with objects := fun r r' hr hne => ?_ }
    obtain ⟨o, o', ho, ho', hsame⟩ := hplaces.objects r r' hr hne
    refine ⟨o, o', ho, ?_, hsame⟩
    refine (Machine.object?_put_of_ne ?_).trans (hadds.same ho')
    rintro rfl
    exact hne (hplaces.injective r c.continuation r' hr hplaces.continuation)
  · subst hc'
    exact hobject
  · refine Except.bind_ok.mpr ⟨_, hstate, mapM_ok_iff.mpr ?_⟩
    subst hc'
    refine List.forall₂_iff_zip.mpr ⟨hholds.length_eq, fun {r frame} hmem => ?_⟩
    exact captureFrame_of_holds (((List.forall₂_iff_zip.mp hholds).2 hmem).keepsAll hkeeps)
      (hcaptured' frame (List.of_mem_zip hmem).2)

end Coroutine

/-- Was the class made suspendable, from code that makes no method states of its own? Points are
numbered by 32 bit integers. -/
def Class.MadeSuspendable (settings : Settings) (c : Class) : Prop :=
  ∃ h written, written.isMarked = false ∧ written.CreatesNone ∧
    suspendableClass settings h written = .ok c ∧ ∀ s ∈ c.summaries, s.points ≤ 2 ^ 31

namespace Coroutine

variable {c : Coroutine} {m : Machine} {D : Discipline} {bytes : List UInt8}

/-- **Snapshots carry coroutines to other machines.** A coroutine was reached by running suspendable
classes, and its snapshot could be written. Then it can be read onto every machine with the same
classes, and the coroutine there is the same one with its objects at other places. -/
theorem deserialize_serialize {settings : Settings} {classes : List Class} {depth steps : Nat}
    (hclasses : ∀ d ∈ classes, d.MadeSuspendable settings)
    (hreached : c.Reached (.ready settings classes depth steps))
    (hsize : c.machine.heap.size ≤ 256 ^ 4) (hbytes : c.serialize .empty = .ok bytes)
    (hm : m.Sound D) (hsame : m.classes = c.machine.classes) :
    ∃ c', deserialize m bytes .empty = .ok c' ∧ ∃ f, c.Relocated f c' := by
  have hloaded : (Machine.ready settings classes depth steps).classes = Machine.loaded classes := by
    rw [Machine.ready_eq]
  have hnatives : (Machine.ready settings classes depth steps).natives = settings.natives := by
    rw [Machine.ready_eq]
  have hready : (Machine.ready settings classes depth steps).Sound
      (.keyed settings.natives (isLoadable (Machine.loaded classes) · = true)) := by
    refine .ready fun d hd method hmethod => ?_
    obtain ⟨h, written, hunmarked, hnone, hmade, hpoints⟩ :=
      hclasses d (Machine.mem_of_mem_loaded hd)
    exact suspendableClass_keyed (Machine.provided_natives settings) hunmarked hnone hmade hd hpoints
      method hmethod
  obtain ⟨hlater, hsound⟩ := hreached.sound (hnatives ▸ Discipline.keyed_kept _ _) hready
    (hloaded ▸ fun _ h => h)
  refine deserialize_of_sound hsound hsize hbytes hm fun k hk => ?_
  rw [hsame, hlater.classes, hloaded]
  exact hk

end Coroutine

/-! ## Classes to run

That a method can be made suspendable is found out once, and then it is run without its body being
analyzed again. -/

/-- A method that is known to be made suspendable. -/
def draft (settings : Settings) (h : Hierarchy) (owner : ClassName) (m : Method) :
    Option SuspendableMethod := do
  let plan ← (planMethod settings.policy h owner m (← m.code) (← m.continuationSlot?)).toOption
  let parts ← (expansion settings plan).toOption
  return { method := m.filled h owner parts.code
           summary :=
            { name := m.name, descriptor := m.descriptor, id := plan.id, version := plan.version
              points := plan.points.length } }

section

variable {settings : Settings} {h : Hierarchy} {owner : ClassName}

/-- A method that was made suspendable is the draft of it. -/
theorem makeSuspendable_draft {m : Method} {made : SuspendableMethod}
    (hmade : makeSuspendable settings h owner m = .ok (some made)) :
    draft settings h owner m = some made := by
  obtain ⟨written, plan, parts, hwritten, hslot, hplan, -, -, hparts, hmetadata, hsummary⟩ :=
    makeSuspendable_metadata hmade
  rcases made with ⟨method, summary⟩
  cases withMetadata_filled hmetadata
  cases hsummary
  simp only [draft, hwritten, hslot, Option.bind_eq_bind, Option.bind_some, hplan, hparts,
    Except.toOption]
  rfl

/-- **The methods without an analysis**, once it is known that all of them are made suspendable. -/
theorem mapM_draft {methods : List Method}
    (hall : ∀ m ∈ methods, (makeSuspendable settings h owner m).toOption.join.isSome = true) :
    methods.mapM (makeSuspendable settings h owner) =
      .ok ((methods.filterMap (draft settings h owner)).map some) := by
  rw [mapM_ok_iff]
  induction methods with
  | nil => exact .nil
  | cons m methods ih =>
    obtain ⟨hm, hall⟩ := List.forall_mem_cons.mp hall
    obtain ⟨made, hjoin⟩ := Option.isSome_iff_exists.mp hm
    have hmade : makeSuspendable settings h owner m = .ok (some made) := ok_of_join hjoin
    rw [List.filterMap_cons_some (makeSuspendable_draft hmade)]
    exact .cons hmade (ih hall)

end

namespace Coroutine

/-! ## A coroutine that waits, and one that forges a state -/

namespace Waiting

/-- A class with a method `run` that does some things and then suspends. -/
def classOf (name : ClassName) (before : List Instruction) : Class where
  name := name
  superclass := some .object
  interfaces := []
  flags := 0
  fields := []
  methods := [{
    name := .run
    descriptor := ⟨[.object .continuation], none⟩
    flags := 0
    annotations := []
    code := some {
      maxLocals := 3
      maxStack := 8
      instructions := ⟨before ++ [.load .object 1,
        .invoke .virtual Interface.Continuation.suspend, .returnVoid]⟩
      handlers := []
      stackMap := none
      nextLabel := ⟨0⟩ } }]
  attributes := []

/-- The class of the sample. -/
def sleeper : ClassName := { text := "Sleeper" }

/-- Keeps a number in a local variable. -/
def remembers : Class := classOf sleeper [.pushInt 7, .store .int 2]

/-- Hands over a method state of its own making, for code that is not there. -/
def forges : Class := classOf sleeper [.load .object 1, .pushConstant (.string "Other"), .pushInt 1,
  .pushInt 2, .pushInt 3, .pushNull, .pushNull, .pushNull,
  .invoke .static Interface.MethodState.create,
  .invoke .virtual Interface.Continuation.pushNewMethodState]

/-- The coroutine after its first execution, on a machine with the suspendable class. -/
def suspended (c : Class) : Option (Class × Coroutine) := do
  let made ← (suspendableClass .standard Library.hierarchy c).toOption
  let new ← (Coroutine.new (.ready .standard [made] 9 1000) sleeper).toOption
  match new.execute with
  | (.ok true, c) => return (made, c)
  | _ => none

/-- What is computed of the sample is a coroutine after an execution. -/
theorem suspended_reached {written made : Class} {c : Coroutine}
    (h : suspended written = some (made, c)) :
    suspendableClass .standard Library.hierarchy written = .ok made ∧
      c.Reached (.ready .standard [made] 9 1000) := by
  obtain ⟨made', hmade, h⟩ := Option.bind_eq_some_iff.mp h
  obtain ⟨new, hnew, h⟩ := Option.bind_eq_some_iff.mp h
  cases hclass : suspendableClass .standard Library.hierarchy written with
  | error e =>
    rw [hclass] at hmade
    cases hmade
  | ok made'' =>
    rw [hclass] at hmade
    cases hmade
    cases hstart : Coroutine.new (.ready .standard [made'] 9 1000) sleeper with
    | error e =>
      rw [hstart] at hnew
      cases hnew
    | ok new' =>
      rw [hstart] at hnew
      cases hnew
      split at h
      · rename_i d hd
        cases h
        refine ⟨rfl, ?_⟩
        have hreached := Reached.executed (.new hstart)
        rwa [hd] at hreached
      · cases h

/-- What comes of the snapshot of a suspended coroutine, with the numbers that matter. -/
def outcome (written : Class) : Option (Bool × Bool) := do
  let (made, c) ← suspended written
  let bytes ← (c.serialize .empty).toOption
  let read := deserialize (.ready .standard [made] 9 1000) bytes .empty
  return (read.toOption.isSome,
    decide (c.machine.heap.size ≤ 100) && made.summaries.all (·.points ≤ 100))

/-- From an outcome back to the coroutine. -/
theorem of_outcome {written : Class} {read fits : Bool} (h : outcome written = some (read, fits)) :
    ∃ made c bytes, suspended written = some (made, c) ∧ c.serialize .empty = .ok bytes ∧
      (deserialize (.ready .standard [made] 9 1000) bytes .empty).toOption.isSome = read ∧
      (decide (c.machine.heap.size ≤ 100) && made.summaries.all (·.points ≤ 100)) = fits := by
  obtain ⟨⟨made, c⟩, hsuspended, h⟩ := Option.bind_eq_some_iff.mp h
  obtain ⟨bytes, hbytes, h⟩ := Option.bind_eq_some_iff.mp h
  cases hserialize : c.serialize .empty with
  | error e =>
    rw [hserialize] at hbytes
    cases hbytes
  | ok bytes' =>
    rw [hserialize] at hbytes
    cases hbytes
    cases h
    exact ⟨made, c, bytes, hsuspended, hserialize, rfl, rfl⟩

/-- All methods of the sample can be made suspendable. -/
theorem remembers_made : ∀ m ∈ remembers.methods, (makeSuspendable .standard
    (remembers.within Library.hierarchy) remembers.name m).toOption.join.isSome = true := by
  unfold makeSuspendable MethodPlan.generate
  simp only [withMetadata_eq]
  decide +kernel

/-- All methods of the other sample can be made suspendable. -/
theorem forges_made : ∀ m ∈ forges.methods, (makeSuspendable .standard
    (forges.within Library.hierarchy) forges.name m).toOption.join.isSome = true := by
  unfold makeSuspendable MethodPlan.generate
  simp only [withMetadata_eq]
  decide +kernel

end Waiting

open Waiting in
/-- The coroutine with a number in a local variable, carried to a machine of its own. -/
theorem deserialize_serialize_remembers : ∃ made c bytes,
    suspended remembers = some (made, c) ∧ made.MadeSuspendable .standard ∧
      c.Reached (.ready .standard [made] 9 1000) ∧ c.serialize .empty = .ok bytes ∧
      ∃ c', deserialize (.ready .standard [made] 5 1000) bytes .empty = .ok c' ∧
        ∃ f, c.Relocated f c' := by
  have hruns : outcome remembers = some (true, true) := by
    unfold outcome suspended suspendableClass
    rw [mapM_draft remembers_made]
    decide +kernel
  obtain ⟨made, c, bytes, hsuspended, hbytes, -, hfits⟩ := of_outcome hruns
  obtain ⟨hmade, hreached⟩ := suspended_reached hsuspended
  obtain ⟨hsize, hpoints⟩ := Bool.and_eq_true_iff.mp hfits
  have hsmall : c.machine.heap.size ≤ 256 ^ 4 := (of_decide_eq_true hsize).trans (by decide)
  have hcode : made.MadeSuspendable .standard := by
    refine ⟨Library.hierarchy, remembers, by decide, fun method hmethod code hcode => ?_, hmade,
      fun s hs => ?_⟩
    · cases List.mem_singleton.mp hmethod
      cases hcode
      exact .of_all (by decide)
    · exact (of_decide_eq_true (List.all_eq_true.mp hpoints s hs)).trans (by decide)
  have hall : ∀ d ∈ [made], d.MadeSuspendable .standard := List.forall_mem_singleton.mpr hcode
  have hsound : (Machine.ready .standard [made] 5 1000).Sound .none := .ready fun _ _ _ _ => trivial
  refine ⟨made, c, bytes, hsuspended, hcode, hreached, hbytes,
    deserialize_serialize hall hreached hsmall hbytes hsound ?_⟩
  have hlater := (hreached.sound (D := .none) (Discipline.none_kept _)
    (.ready fun _ _ _ _ => trivial) fun _ _ => trivial).1
  rw [hlater.classes, Machine.ready_eq, Machine.ready_eq]

open Waiting in
/-- A method state that the code made itself is written, but there is no code to load it. -/
theorem deserialize_serialize_forges : ∃ made c bytes,
    suspendableClass .standard Library.hierarchy forges = .ok made ∧
      suspended forges = some (made, c) ∧ c.Reached (.ready .standard [made] 9 1000) ∧
      c.serialize .empty = .ok bytes ∧
      ∀ c', deserialize (.ready .standard [made] 9 1000) bytes .empty ≠ .ok c' := by
  have hruns : outcome forges = some (false, true) := by
    unfold outcome suspended suspendableClass
    rw [mapM_draft forges_made]
    decide +kernel
  obtain ⟨made, c, bytes, hsuspended, hbytes, hread, -⟩ := of_outcome hruns
  obtain ⟨hmade, hreached⟩ := suspended_reached hsuspended
  refine ⟨made, c, bytes, hmade, hsuspended, hreached, hbytes, fun c' hc' => ?_⟩
  rw [hc'] at hread
  cases hread

end Coroutine

end Resumption
