import Resumption.Proofs.Bytes.RoundTrip
import Resumption.Proofs.Frame.WellFormed
import Resumption.Snapshot.Format

/-!
# Snapshots are read as they were written

Writing and reading objects is left open in the format, and both sides carry a state along. All that
the format needs of them is a **`Pairing`** that the two keep up (`Pairing.Inverts`):

* the states are *in step* before an object and after it;
* an object *reads as* what came back for it, and from then on always does.

A reader may look no further ahead than so many bytes, which is the *limit* of the pairing.

Then every part of a snapshot is read back with exactly its bytes taken (`ReadsBack`), from single
objects up to the snapshot itself (`readsBack_snapshot`). If objects are read back as they were,
the snapshot that comes back is the one that was written, with the continuation of the reader put in
its places (`read_write`).
-/

namespace Resumption

/-! ## What comes back -/

namespace SavedData

variable {ω ω' : Type}

/-- Data with the continuation in its places. -/
def withHandle (handle : ω) (d : SavedData ω) : SavedData ω :=
  { d with objects := d.objects.zipIdx.map fun (x, i) => if i ∈ d.handles then handle else x }

/-- Are all places of the continuation among the objects? -/
def InRange (d : SavedData ω) : Prop := ∀ i ∈ d.handles, i < d.objects.length

/-- The same numbers and places of the continuation, objects that are related, and the continuation
in its places. -/
structure Matches (V : ω → ω' → Prop) (handle : ω') (d : SavedData ω) (d' : SavedData ω') :
    Prop where
  /-- numbers are the same -/
  ints : d'.ints = d.ints
  /-- numbers are the same -/
  longs : d'.longs = d.longs
  /-- patterns are the same -/
  floats : d'.floats = d.floats
  /-- patterns are the same -/
  doubles : d'.doubles = d.doubles
  /-- the handle is at the same places -/
  handles : d'.handles = d.handles
  /-- there are as many objects -/
  length : d'.objects.length = d.objects.length
  /-- objects match, and the handle is the handle -/
  objects : ∀ i x y, d.objects[i]? = some x → d'.objects[i]? = some y →
    if i ∈ d.handles then y = handle else V x y

theorem Matches.mono {V W : ω → ω' → Prop} {handle : ω'} {d : SavedData ω} {d' : SavedData ω'}
    (h : d.Matches V handle d') (hVW : ∀ x y, V x y → W x y) : d.Matches W handle d' :=
  { h with
    objects := fun i x y hx hy => by
      have hxy := h.objects i x y hx hy
      split
      · rename_i hmem
        rwa [if_pos hmem] at hxy
      · rename_i hnot
        rw [if_neg hnot] at hxy
        exact hVW x y hxy }

/-- Related by equality: only the continuation is put in place. -/
theorem Matches.eq_withHandle {handle : ω} {d d' : SavedData ω} (h : d.Matches Eq handle d') :
    d' = d.withHandle handle := by
  have hobjects : d'.objects = (d.withHandle handle).objects := by
    refine List.ext_getElem? fun i => ?_
    simp only [withHandle, List.getElem?_map, List.getElem?_zipIdx, Nat.zero_add]
    by_cases hi : i < d.objects.length
    · have hi' : i < d'.objects.length := h.length ▸ hi
      have hat := h.objects i _ _ (List.getElem?_eq_getElem hi) (List.getElem?_eq_getElem hi')
      rw [List.getElem?_eq_getElem hi, List.getElem?_eq_getElem hi']
      simp only [Option.map_some, Option.some.injEq]
      split at hat
      · rename_i hmem
        rw [if_pos hmem, hat]
      · rename_i hmem
        rw [if_neg hmem, ← hat]
    · have hle : d.objects.length ≤ i := Nat.not_lt.mp hi
      rw [List.getElem?_eq_none hle, List.getElem?_eq_none (h.length ▸ hle)]
      rfl
  cases d'
  cases h.ints
  cases h.longs
  cases h.floats
  cases h.doubles
  cases h.handles
  exact congrArg (fun objects => { d with objects }) hobjects

end SavedData

namespace SavedFrame

variable {ω ω' : Type}

/-- A frame with the continuation in its places. -/
def withHandle (handle : ω) (f : SavedFrame ω) : SavedFrame ω :=
  { f with locals := f.locals.withHandle handle, stack := f.stack.withHandle handle }

/-- Are all places of the continuation among the objects? -/
def InRange (f : SavedFrame ω) : Prop := f.locals.InRange ∧ f.stack.InRange

/-- The same key, related monitors, and data that match. -/
structure Matches (V : ω → ω' → Prop) (handle : ω') (f : SavedFrame ω) (f' : SavedFrame ω') :
    Prop where
  /-- it belongs to the same point -/
  key : f'.key = f.key
  /-- monitors match -/
  monitors : List.Forall₂ V f.monitors f'.monitors
  /-- variables match -/
  locals : f.locals.Matches V handle f'.locals
  /-- operands match -/
  stack : f.stack.Matches V handle f'.stack

theorem Matches.mono {V W : ω → ω' → Prop} {handle : ω'} {f : SavedFrame ω} {f' : SavedFrame ω'}
    (h : f.Matches V handle f') (hVW : ∀ x y, V x y → W x y) : f.Matches W handle f' :=
  ⟨h.key, h.monitors.imp hVW, h.locals.mono hVW, h.stack.mono hVW⟩

theorem Matches.eq_withHandle {handle : ω} {f f' : SavedFrame ω} (h : f.Matches Eq handle f') :
    f' = f.withHandle handle := by
  obtain ⟨key, monitors, locals, stack⟩ := f'
  have hmonitors : f.monitors = monitors := List.forall₂_eq_eq_eq ▸ h.monitors
  cases h.key
  cases hmonitors
  cases h.locals.eq_withHandle
  cases h.stack.eq_withHandle
  rfl

end SavedFrame

namespace VersionedFrame

variable {ω ω' : Type}

/-- Representations with the continuation in its places. -/
def withHandle (handle : ω) (v : VersionedFrame ω) : VersionedFrame ω :=
  ⟨v.representations.map (·.withHandle handle)⟩

/-- Are all places of the continuation among the objects? -/
def InRange (v : VersionedFrame ω) : Prop := ∀ f ∈ v.representations, f.InRange

/-- As many representations, in the same order, that match. -/
def Matches (V : ω → ω' → Prop) (handle : ω') (v : VersionedFrame ω) (v' : VersionedFrame ω') :
    Prop :=
  List.Forall₂ (SavedFrame.Matches V handle) v.representations v'.representations

theorem Matches.mono {V W : ω → ω' → Prop} {handle : ω'} {v : VersionedFrame ω}
    {v' : VersionedFrame ω'} (h : v.Matches V handle v') (hVW : ∀ x y, V x y → W x y) :
    v.Matches W handle v' := h.imp fun _ _ hf => hf.mono hVW

end VersionedFrame

namespace Snapshot

variable {ω ω' : Type}

/-- A snapshot with the continuation in its places. -/
def withHandle (handle : ω) (s : Snapshot ω) : Snapshot ω :=
  { s with frames := s.frames.map (·.withHandle handle) }

/-- Are all places of the continuation among the objects? -/
def InRange (s : Snapshot ω) : Prop := ∀ v ∈ s.frames, v.InRange

/-- A related payload, and as many frames, in the same order, that match. -/
structure Matches (V : ω → ω' → Prop) (handle : ω') (s : Snapshot ω) (s' : Snapshot ω') :
    Prop where
  /-- payloads match -/
  payload : V s.payload s'.payload
  /-- frames match -/
  frames : List.Forall₂ (VersionedFrame.Matches V handle) s.frames s'.frames

/-- A relation that is a function on the right gives a list that is a map. -/
theorem map_of_forall₂ {α β : Type} {R : α → β → Prop} {f : α → β} (hR : ∀ a b, R a b → b = f a)
    {xs : List α} {ys : List β} (h : List.Forall₂ R xs ys) : ys = xs.map f := by
  induction h with
  | nil => rfl
  | cons hab _ ih => rw [List.map_cons, ← hR _ _ hab, ← ih]

theorem Matches.eq_withHandle {handle : ω} {s s' : Snapshot ω} (h : s.Matches Eq handle s') :
    s' = s.withHandle handle := by
  have hframes : s'.frames = s.frames.map (·.withHandle handle) := by
    refine map_of_forall₂ (fun v v' hv => ?_) h.frames
    have hrepresentations := map_of_forall₂ (fun f f' hf => hf.eq_withHandle) hv
    cases v'
    exact congrArg VersionedFrame.mk hrepresentations
  obtain ⟨payload, frames⟩ := s'
  cases h.payload
  cases hframes
  rfl

/-! ## Objects that are read back -/

/-- How the states of a writer and a reader of objects go together. -/
structure Pairing (ω ω' σ ρ : Type) where
  /-- the most bytes that are read -/
  limit : Nat
  /-- have both sides seen the same objects? -/
  inStep : σ → ρ → Prop
  /-- what an object reads as, once both sides have seen it -/
  reads : σ → ρ → ω → ω' → Prop

variable {σ ρ α β : Type}

namespace Pairing

variable (p : Pairing ω ω' σ ρ)

/-- Objects still read as what they read as before. -/
def Keeps (s : σ) (t : ρ) (s' : σ) (t' : ρ) : Prop := ∀ x y, p.reads s t x y → p.reads s' t' x y

/-- Whatever is written from states in step, within the limit, is read from the same states, and the
reader takes exactly the bytes that were written. The result satisfies `Q`, and the states are in
step again. -/
def ReadsBack (write : Writing σ (List UInt8)) (read : Reading ρ β) (Q : σ → ρ → β → Prop) :
    Prop :=
  ∀ s t bytes s' rest, p.inStep s t → write s = .ok (bytes, s') → bytes.length ≤ p.limit →
    ∃ y t', read ⟨t, bytes ++ rest⟩ = .ok (y, ⟨t', rest⟩) ∧ p.inStep s' t' ∧
      p.Keeps s t s' t' ∧ Q s' t' y

/-- Reading objects undoes writing them. Null may be read as anything. -/
structure Inverts (w : ObjectWriter ω σ) (r : ObjectReader ω' ρ) : Prop where
  /-- objects are read back -/
  object : ∀ x, p.ReadsBack (w.write x) r.read fun s t y => p.reads s t x y
  /-- null is read over -/
  null : p.ReadsBack w.null r.read fun _ _ _ => True

end Pairing

/-! ## Counted items -/

theorem writeCount_ok {n : Nat} {bytes : List UInt8} (h : writeCount n = .ok bytes) :
    n < 256 ^ 4 ∧ bytes = Bytes.ofNat 4 n := by
  simp only [writeCount] at h
  split at h
  · cases h
    exact ⟨‹_›, rfl⟩
  · cases h

/-- A part without objects leaves the reader of objects alone. -/
theorem plain_eq {reader : Bytes.Reader α} {bytes rest : List UInt8} {a : α} {t : ρ}
    (h : reader bytes = .ok (a, rest)) : plain reader ⟨t, bytes⟩ = .ok (a, ⟨t, rest⟩) := by
  simp only [plain, h]

theorem plain_count {n : Nat} {bytes : List UInt8} (h : writeCount n = .ok bytes)
    (rest : List UInt8) (t : ρ) :
    plain (Bytes.nat 4) ⟨t, bytes ++ rest⟩ = .ok (n, ⟨t, rest⟩) := by
  obtain ⟨hfits, rfl⟩ := writeCount_ok h
  exact plain_eq (Bytes.nat_ofNat hfits rest)

/-- Items without objects. -/
theorem readItems_writeItems {write : α → List UInt8} {read : Reading ρ α} {xs : List α}
    {bytes : List UInt8} (h : writeItems write xs = .ok bytes)
    (hitem : ∀ x ∈ xs, ∀ t rest, read ⟨t, write x ++ rest⟩ = .ok (x, ⟨t, rest⟩)) (t : ρ)
    (rest : List UInt8) : readItems read ⟨t, bytes ++ rest⟩ = .ok (xs, ⟨t, rest⟩) := by
  obtain ⟨count, hcount, hbytes⟩ := Except.bind_ok.mp h
  cases hbytes
  have hitems : Bytes.items xs.length read ⟨t, xs.flatMap write ++ rest⟩ =
      .ok (xs, ⟨t, rest⟩) := by
    clear h hcount
    induction xs with
    | nil => rfl
    | cons x xs ih =>
      rw [List.length_cons, Bytes.items_succ, List.flatMap_cons, List.append_assoc,
        StateT.bind_of_ok (hitem x (List.mem_cons_self ..) t _),
        StateT.bind_of_ok (ih fun y hy => hitem y (List.mem_cons_of_mem _ hy))]
      rfl
  rw [readItems, List.append_assoc, StateT.bind_of_ok (plain_count hcount _ t)]
  exact hitems

variable {p : Pairing ω ω' σ ρ}

/-- One object after the other. `Q` holds of each at the end, since it is kept. -/
theorem readsBack_each {write : α → Writing σ (List UInt8)} {read : Reading ρ β}
    {Q : α → σ → ρ → β → Prop} (xs : List α) (hitem : ∀ x ∈ xs, p.ReadsBack (write x) read (Q x))
    (hkeeps : ∀ x s t s' t' y, p.Keeps s t s' t' → Q x s t y → Q x s' t' y) :
    p.ReadsBack (writeEach write xs) (Bytes.items xs.length read)
      fun s t ys => List.Forall₂ (fun x y => Q x s t y) xs ys := by
  induction xs with
  | nil =>
    intro s t bytes s' rest hstep h _
    cases h
    exact ⟨[], t, rfl, hstep, fun _ _ h => h, .nil⟩
  | cons x xs ih =>
    intro s t bytes s' rest hstep h hlimit
    -- the bytes of the first item, then those of the others
    obtain ⟨parts, _, hparts, hbytes⟩ := StateT.bind_ok.mp h
    cases hbytes
    rw [List.mapM_cons] at hparts
    obtain ⟨first, s₁, hfirst, hparts⟩ := StateT.bind_ok.mp hparts
    obtain ⟨others, _, hothers, hends⟩ := StateT.bind_ok.mp hparts
    cases hends
    rw [List.flatten_cons, List.length_append] at hlimit
    obtain ⟨y, t₁, hread, hstep₁, hkept₁, hy⟩ := hitem x (List.mem_cons_self ..) s t first s₁
      (others.flatten ++ rest) hstep hfirst (by omega)
    have hrest : writeEach write xs s₁ = .ok (others.flatten, s') := StateT.bind_ok.mpr
      ⟨others, s', hothers, rfl⟩
    obtain ⟨ys, t₂, hreads, hstep₂, hkept₂, hys⟩ :=
      ih (fun x hx => hitem x (List.mem_cons_of_mem _ hx)) s₁ t₁ _ _ rest hstep₁ hrest (by omega)
    refine ⟨y :: ys, t₂, ?_, hstep₂, fun a b h => hkept₂ a b (hkept₁ a b h),
      .cons (hkeeps x _ _ _ _ y hkept₂ hy) hys⟩
    rw [List.length_cons, Bytes.items_succ, List.flatten_cons, List.append_assoc,
      StateT.bind_of_ok hread, StateT.bind_of_ok hreads]
    rfl

/-! ## Parts of a snapshot -/

variable {w : ObjectWriter ω σ} {r : ObjectReader ω' ρ}

theorem putHandles_inRange {handle : ω} {objects : List ω} {handles : List Nat}
    (h : ∀ i ∈ handles, i < objects.length) :
    putHandles handle objects handles =
      .ok (handles.foldl (fun objects i => objects.set i handle) objects) := by
  have hnone : handles.find? (objects.length ≤ ·) = none := by
    rw [List.find?_eq_none]
    intro i hi
    have := h i hi
    simpa using this
  simp only [putHandles, hnone]

/-- What is at an index after the continuation was put in its places. -/
theorem getElem?_putHandles {handle : ω} (handles : List Nat) (objects : List ω) (i : Nat) :
    (handles.foldl (fun objects i => objects.set i handle) objects)[i]? =
      if i ∈ handles then objects[i]?.map (fun _ => handle) else objects[i]? := by
  induction handles generalizing objects with
  | nil => simp
  | cons j handles ih =>
    rw [List.foldl_cons, ih, List.getElem?_set]
    by_cases hij : j = i
    · subst hij
      by_cases hlt : j < objects.length
      · simp [hlt]
      · simp [hlt]
    · simp [hij, Ne.symm hij]

theorem length_putHandles {handle : ω} (handles : List Nat) (objects : List ω) :
    (handles.foldl (fun objects i => objects.set i handle) objects).length = objects.length := by
  induction handles generalizing objects with
  | nil => rfl
  | cons j handles ih => rw [List.foldl_cons, ih, List.length_set]

/-- Bits of a float. -/
theorem read_float (bits : UInt32) (t : ρ) (rest : List UInt8) :
    (UInt32.ofNat <$> plain (Bytes.nat 4)) ⟨t, Bytes.ofNat 4 bits.toNat ++ rest⟩ =
      .ok (bits, (⟨t, rest⟩ : ReadState ρ)) := by
  have hfits : bits.toNat < 256 ^ 4 := bits.toNat_lt
  have hread := plain_eq (t := t) (Bytes.nat_ofNat hfits rest)
  rw [map_eq_pure_bind, StateT.bind_of_ok hread, UInt32.ofNat_toNat]
  rfl

/-- Bits of a double. -/
theorem read_double (bits : UInt64) (t : ρ) (rest : List UInt8) :
    (UInt64.ofNat <$> plain (Bytes.nat 8)) ⟨t, Bytes.ofNat 8 bits.toNat ++ rest⟩ =
      .ok (bits, (⟨t, rest⟩ : ReadState ρ)) := by
  have hfits : bits.toNat < 256 ^ 8 := bits.toNat_lt
  have hread := plain_eq (t := t) (Bytes.nat_ofNat hfits rest)
  rw [map_eq_pure_bind, StateT.bind_of_ok hread, UInt64.ofNat_toNat]
  rfl

theorem readsBack_data (h : p.Inverts w r) {d : SavedData ω} (hrange : d.InRange) :
    p.ReadsBack (writeData w d) (readData r) fun s t d' => d.Matches (p.reads s t) r.handle d' := by
  intro s t bytes s' rest hstep hwrite hlimit
  obtain ⟨ints, hints, hwrite⟩ := StateT.lift_bind_ok.mp hwrite
  obtain ⟨longs, hlongs, hwrite⟩ := StateT.lift_bind_ok.mp hwrite
  obtain ⟨floats, hfloats, hwrite⟩ := StateT.lift_bind_ok.mp hwrite
  obtain ⟨doubles, hdoubles, hwrite⟩ := StateT.lift_bind_ok.mp hwrite
  obtain ⟨count, hcount, hwrite⟩ := StateT.lift_bind_ok.mp hwrite
  obtain ⟨objects, s₁, hobjects, hwrite⟩ := StateT.bind_ok.mp hwrite
  obtain ⟨handles, hhandles, hwrite⟩ := StateT.lift_bind_ok.mp hwrite
  cases hwrite
  simp only [List.length_append] at hlimit
  -- an object in a place of the continuation reads as anything, every other one as itself
  have hslots : p.ReadsBack (writeEach (writeSlot w d.handles) d.objects.zipIdx)
      (Bytes.items d.objects.zipIdx.length r.read) fun s t ys =>
        List.Forall₂ (fun x y => x.2 ∉ d.handles → p.reads s t x.1 y) d.objects.zipIdx ys := by
    refine readsBack_each (Q := fun x s t y => x.2 ∉ d.handles → p.reads s t x.1 y)
      d.objects.zipIdx ?_ ?_
    · rintro ⟨x, i⟩ - s t bytes s' rest hstep hslot hlimit
      simp only [writeSlot] at hslot
      split at hslot
      · rename_i hmem
        obtain ⟨y, t', hread, hstep', hkept, -⟩ := h.null s t bytes s' rest hstep hslot hlimit
        exact ⟨y, t', hread, hstep', hkept, fun hnot => absurd (by simpa using hmem) hnot⟩
      · obtain ⟨y, t', hread, hstep', hkept, hy⟩ := h.object x s t bytes s' rest hstep hslot hlimit
        exact ⟨y, t', hread, hstep', hkept, fun _ => hy⟩
    · exact fun x s t s' t' y hkept hy hnot => hkept _ _ (hy hnot)
  obtain ⟨ys, t', hreads, hstep', hkept, hys⟩ := hslots s t objects s' (handles ++ rest) hstep
    hobjects (by omega)
  rw [List.length_zipIdx] at hreads
  have hlength : ys.length = d.objects.length := by
    rw [← hys.length_eq, List.length_zipIdx]
  have hfits := (writeCount_ok hcount).1
  have hput : putHandles r.handle ys d.handles = _ :=
    putHandles_inRange fun i hi => hlength ▸ hrange i hi
  refine ⟨{ ints := d.ints, longs := d.longs, floats := d.floats, doubles := d.doubles,
            objects := d.handles.foldl (fun objects i => objects.set i r.handle) ys,
            handles := d.handles }, t', ?_, hstep', hkept, ?_⟩
  · have hcounted : readItems r.read ⟨t, count ++ (objects ++ (handles ++ rest))⟩ =
        .ok (ys, ⟨t', handles ++ rest⟩) := by
      rw [readItems, StateT.bind_of_ok (plain_count hcount _ t)]
      exact hreads
    simp only [readData, List.append_assoc]
    rw [StateT.bind_of_ok (readItems_writeItems hints
        (fun n _ t rest => plain_eq (Bytes.int32_ofInt32 n rest)) t _),
      StateT.bind_of_ok (readItems_writeItems hlongs
        (fun n _ t rest => plain_eq (Bytes.int64_ofInt64 n rest)) t _),
      StateT.bind_of_ok (readItems_writeItems hfloats (fun bits _ => read_float bits) t _),
      StateT.bind_of_ok (readItems_writeItems hdoubles (fun bits _ => read_double bits) t _),
      StateT.bind_of_ok hcounted,
      StateT.bind_of_ok (readItems_writeItems hhandles (fun i hi t rest =>
        plain_eq (Bytes.nat_ofNat (Nat.lt_trans (hrange i hi) hfits) rest)) t' _),
      hput]
    rfl
  · refine ⟨rfl, rfl, rfl, rfl, rfl, (length_putHandles _ _).trans hlength,
      fun i x y hx hy => ?_⟩
    simp only [getElem?_putHandles] at hy
    split
    · rename_i hmem
      rw [if_pos hmem] at hy
      obtain ⟨z, -, rfl⟩ := Option.map_eq_some_iff.mp hy
      rfl
    · rename_i hnot
      rw [if_neg hnot] at hy
      have hslot : d.objects.zipIdx[i]? = some (x, i) := by
        rw [List.getElem?_zipIdx, hx, Nat.zero_add]
        rfl
      obtain ⟨hslot, hx⟩ := List.getElem?_eq_some_iff.mp hslot
      obtain ⟨hi, hy⟩ := List.getElem?_eq_some_iff.mp hy
      have hget := hys.get hslot hi
      simp only [List.get_eq_getElem, hx, hy] at hget
      exact hget hnot

theorem writeKey_ok {k : FrameKey} {bytes : List UInt8} (h : writeKey k = .ok bytes) :
    ∃ owner, Bytes.ofString k.owner = .ok owner ∧
      bytes = owner ++ Bytes.ofInt32 k.id ++ Bytes.ofInt32 k.version ++ Bytes.ofInt32 k.point := by
  simp only [writeKey] at h
  split at h
  · cases h
  · rename_i owner howner
    cases h
    exact ⟨owner, howner, rfl⟩

theorem readsBack_frame (h : p.Inverts w r) {f : SavedFrame ω} (hrange : f.InRange) :
    p.ReadsBack (writeFrame w f) (readFrame r)
      fun s t f' => f.Matches (p.reads s t) r.handle f' := by
  intro s t bytes s' rest hstep hwrite hlimit
  obtain ⟨key, hkey, hwrite⟩ := StateT.lift_bind_ok.mp hwrite
  obtain ⟨owner, howner, rfl⟩ := writeKey_ok hkey
  obtain ⟨count, hcount, hwrite⟩ := StateT.lift_bind_ok.mp hwrite
  obtain ⟨monitors, s₁, hmonitors, hwrite⟩ := StateT.bind_ok.mp hwrite
  obtain ⟨locals, s₂, hlocals, hwrite⟩ := StateT.bind_ok.mp hwrite
  obtain ⟨stack, s₃, hstack, hwrite⟩ := StateT.bind_ok.mp hwrite
  cases hwrite
  simp only [List.length_append] at hlimit
  have heach := readsBack_each (Q := fun x s t y => p.reads s t x y) f.monitors
    (fun x _ => h.object x) fun x _ _ _ _ y hkept hy => hkept x y hy
  obtain ⟨ms, t₁, hreads, hstep₁, hkept₁, hms⟩ := heach s t monitors s₁
    (locals ++ (stack ++ rest)) hstep hmonitors (by omega)
  obtain ⟨ls, t₂, hreads', hstep₂, hkept₂, hls⟩ := readsBack_data h hrange.1 s₁ t₁ locals s₂
    (stack ++ rest) hstep₁ hlocals (by omega)
  obtain ⟨st, t₃, hreads'', hstep₃, hkept₃, hst⟩ := readsBack_data h hrange.2 s₂ t₂ stack s'
    rest hstep₂ hstack (by omega)
  refine ⟨⟨f.key, ms, ls, st⟩, t₃, ?_, hstep₃, ?_, rfl, ?_, ?_, hst⟩
  · have hcounted : readItems r.read ⟨t, count ++ (monitors ++ (locals ++ (stack ++ rest)))⟩ =
        .ok (ms, ⟨t₁, locals ++ (stack ++ rest)⟩) := by
      rw [readItems, StateT.bind_of_ok (plain_count hcount _ t)]
      exact hreads
    simp only [readFrame, List.append_assoc]
    rw [StateT.bind_of_ok (plain_eq (Bytes.string_ofString howner _)),
      StateT.bind_of_ok (plain_eq (Bytes.int32_ofInt32 _ _)),
      StateT.bind_of_ok (plain_eq (Bytes.int32_ofInt32 _ _)),
      StateT.bind_of_ok (plain_eq (Bytes.int32_ofInt32 _ _)),
      StateT.bind_of_ok hcounted, StateT.bind_of_ok hreads', StateT.bind_of_ok hreads'']
    rfl
  · exact fun x y hxy => hkept₃ x y (hkept₂ x y (hkept₁ x y hxy))
  · exact hms.imp fun x y hxy => hkept₃ x y (hkept₂ x y hxy)
  · exact hls.mono hkept₃

theorem readsBack_versioned (h : p.Inverts w r) {v : VersionedFrame ω} (hrange : v.InRange) :
    p.ReadsBack (writeVersioned w v) (readVersioned r)
      fun s t v' => v.Matches (p.reads s t) r.handle v' := by
  intro s t bytes s' rest hstep hwrite hlimit
  simp only [writeVersioned] at hwrite
  split at hwrite
  · cases hwrite
  rename_i hcount
  have hfits : v.representations.length < 256 ^ 2 := Nat.not_le.mp hcount
  obtain ⟨representations, _, heach, hbytes⟩ := StateT.bind_ok.mp hwrite
  cases hbytes
  rw [List.length_append] at hlimit
  obtain ⟨fs, t', hreads, hstep', hkept, hfs⟩ := readsBack_each
    (Q := fun f s t f' => f.Matches (p.reads s t) r.handle f') v.representations
    (fun f hf => readsBack_frame h (hrange f hf)) (fun f _ _ _ _ f' hkept hf => hf.mono hkept)
    s t representations s' rest hstep heach (by omega)
  refine ⟨⟨fs⟩, t', ?_, hstep', hkept, hfs⟩
  rw [readVersioned, List.append_assoc, StateT.bind_of_ok (plain_eq (Bytes.nat_ofNat hfits _)),
    StateT.bind_of_ok hreads]
  rfl

/-- **Any snapshot.** Its bytes are read back, up to what its objects read as. -/
theorem readsBack_snapshot (h : p.Inverts w r) {snapshot : Snapshot ω}
    (hrange : snapshot.InRange) :
    p.ReadsBack (write w snapshot) (read r)
      fun s t snapshot' => snapshot.Matches (p.reads s t) r.handle snapshot' := by
  intro s t bytes s' rest hstep hwrite hlimit
  obtain ⟨payload, s₁, hpayload, hwrite⟩ := StateT.bind_ok.mp hwrite
  obtain ⟨count, hcount, hwrite⟩ := StateT.lift_bind_ok.mp hwrite
  obtain ⟨frames, _, hframes, hbytes⟩ := StateT.bind_ok.mp hwrite
  cases hbytes
  simp only [List.length_append] at hlimit
  obtain ⟨x, t₁, hread, hstep₁, hkept₁, hx⟩ := h.object snapshot.payload s t payload s₁
    (count ++ (frames ++ rest)) hstep hpayload (by omega)
  obtain ⟨vs, t₂, hreads, hstep₂, hkept₂, hvs⟩ := readsBack_each
    (Q := fun v s t v' => v.Matches (p.reads s t) r.handle v') snapshot.frames.reverse
    (fun v hv => readsBack_versioned h (hrange v (List.mem_reverse.mp hv)))
    (fun v _ _ _ _ v' hkept hv => hv.mono hkept) s₁ t₁ frames s' rest hstep₁ hframes (by omega)
  refine ⟨⟨x, vs.reverse⟩, t₂, ?_, hstep₂, fun a b hab => hkept₂ a b (hkept₁ a b hab),
    hkept₂ _ _ hx, ?_⟩
  · have hcounted : readItems (readVersioned r) ⟨t₁, count ++ (frames ++ rest)⟩ =
        .ok (vs, ⟨t₂, rest⟩) := by
      rw [readItems, StateT.bind_of_ok (plain_count hcount _ t₁), ← List.length_reverse]
      exact hreads
    simp only [read, List.append_assoc]
    rw [StateT.bind_of_ok (plain_eq (Bytes.nat_ofNat (n := magic) (by decide) _))]
    simp only [ne_eq, not_true_eq_false, if_false]
    rw [StateT.bind_of_ok (plain_eq (Bytes.nat_ofNat (n := formatVersion) (by decide) _))]
    simp only [not_true_eq_false, if_false]
    rw [StateT.bind_of_ok hread, StateT.bind_of_ok hcounted]
    rfl
  · -- frames are written innermost first, and turned around again
    have hreverse := List.rel_reverse hvs
    rwa [List.reverse_reverse] at hreverse

/-- **Snapshots are read as they were written.** Let reading an object undo writing it, with the
states of reader and writer in step (`R`), and let null be read as something. Then from the bytes of
a snapshot, whatever follows them, the same snapshot is read, with the continuation of the reader in
its places; what follows is left. -/
theorem read_write {w : ObjectWriter ω σ} {r : ObjectReader ω ρ} {R : σ → ρ → Prop}
    (hobject : ∀ x s t bytes s' rest, R s t → w.write x s = .ok (bytes, s') →
      ∃ t', r.read ⟨t, bytes ++ rest⟩ = .ok (x, ⟨t', rest⟩) ∧ R s' t')
    (hnull : ∀ s t bytes s' rest, R s t → w.null s = .ok (bytes, s') →
      ∃ y t', r.read ⟨t, bytes ++ rest⟩ = .ok (y, ⟨t', rest⟩) ∧ R s' t')
    {snapshot : Snapshot ω} (hrange : snapshot.InRange) {s s' : σ} {t : ρ} {bytes : List UInt8}
    (hstep : R s t) (hwrite : write w snapshot s = .ok (bytes, s')) (rest : List UInt8) :
    ∃ t', read r ⟨t, bytes ++ rest⟩ = .ok (snapshot.withHandle r.handle, ⟨t', rest⟩) ∧
      R s' t' := by
  let p : Pairing ω ω σ ρ := ⟨bytes.length, R, fun _ _ => Eq⟩
  have hinverts : p.Inverts w r := by
    constructor
    · intro x s t bytes s' rest hstep hx _
      obtain ⟨t', hread, hstep'⟩ := hobject x s t bytes s' rest hstep hx
      exact ⟨x, t', hread, hstep', fun _ _ h => h, rfl⟩
    · intro s t bytes s' rest hstep hx _
      obtain ⟨y, t', hread, hstep'⟩ := hnull s t bytes s' rest hstep hx
      exact ⟨y, t', hread, hstep', fun _ _ h => h, trivial⟩
  obtain ⟨snapshot', t', hread, hstep', -, hmatches⟩ :=
    readsBack_snapshot hinverts hrange s t bytes s' rest hstep hwrite (Nat.le_refl _)
  rw [← hmatches.eq_withHandle]
  exact ⟨t', hread, hstep'⟩

/-! ## A snapshot of numbers -/

/-- Numbers as objects, each written less the count of objects before it. -/
def distanceWriter : ObjectWriter Int32 Int32 where
  write x := fun count => .ok (Bytes.ofInt32 (x - count), count + 1)
  null := fun count => .ok (Bytes.ofInt32 0, count + 1)

/-- Adds the count of objects before. -/
def distanceReader : ObjectReader Int32 Int32 where
  read := do
    let distance ← plain Bytes.int32
    modifyGet fun s => (distance + s.objects, { s with objects := s.objects + 1 })
  handle := 99

theorem distanceReader_read (n count : Int32) (rest : List UInt8) :
    distanceReader.read ⟨count, Bytes.ofInt32 n ++ rest⟩ =
      .ok (n + count, ⟨count + 1, rest⟩) := by
  simp only [distanceReader]
  rw [StateT.bind_of_ok (plain_eq (Bytes.int32_ofInt32 n rest))]
  rfl

/-- Two frames, the inner one in two versions, with the continuation in its locals and a number
that is not one in its stack. -/
def numbers : Snapshot Int32 where
  payload := 5
  frames := [
    ⟨[⟨⟨"a/Outer", 1, -2, 0⟩, [7, 7], ⟨[1], [], [], [], [5, 6], [1]⟩, .empty⟩]⟩,
    ⟨[⟨⟨"Inner", 3, 4, 1⟩, [], .empty, ⟨[], [-1], [0x7fc00001], [0xfff8000000000001], [8], []⟩⟩,
      ⟨⟨"Inner", 3, 5, 1⟩, [], .empty, .empty⟩]⟩]

theorem read_write_numbers : numbers.InRange ∧ ∃ bytes count, write distanceWriter numbers 0 =
    .ok (bytes, count) ∧ ∃ count', read distanceReader ⟨0, bytes ++ [1, 2]⟩ =
      .ok (numbers.withHandle 99, ⟨count', [1, 2]⟩) ∧ count = count' := by
  have hrange : numbers.InRange := by
    simp [InRange, numbers, VersionedFrame.InRange, SavedFrame.InRange, SavedData.InRange,
      SavedData.empty]
  have hwrites : ∃ bytes count, write distanceWriter numbers 0 = .ok (bytes, count) := ⟨_, _, rfl⟩
  obtain ⟨bytes, count, hwrite⟩ := hwrites
  refine ⟨hrange, bytes, count, hwrite, read_write (r := distanceReader) (R := Eq) ?_ ?_ hrange
    rfl hwrite [1, 2]⟩
  · rintro x count _ bytes count' rest rfl hwrite
    cases hwrite
    refine ⟨count + 1, ?_, rfl⟩
    have hread := distanceReader_read (x - count) count rest
    rwa [Int32.sub_add_cancel] at hread
  · rintro count _ bytes count' rest rfl hwrite
    cases hwrite
    exact ⟨_, _, distanceReader_read 0 count rest, rfl⟩

end Snapshot

end Resumption
