import Resumption.Proofs.Machine.Effects
import Resumption.Proofs.Machine.Straight

/-!
# Arrays of arrays

An array with several dimensions is allocated from the outside in: the outer array first, then its
elements one after the other, each with all that belongs to it. So it is known where every sub-array
comes to lie (`Grid.place`), and that no two share a place.

Counts are looked at in the same order, which makes a difference when one of them is zero: what comes
after it is not looked at (`Grid.examined`). A negative count among those that are looked at raises an
exception (`Run.allocateArrays_negative`). If there is none, the array is rectangular
(`Run.allocateArrays_lies`), even if one of the other counts is negative
(`Step.newMultiArray_lenient`).
-/

namespace Resumption

namespace Grid

/-! ## Where sub-arrays lie -/

/-- Objects in an array of arrays with these lengths. -/
def objects : List Nat → Nat
  | [] => 0
  | c :: rest => 1 + c * objects rest

/-- The place of the sub-array at a path, in an array whose own place is `base`. -/
def place (base : Nat) : (lengths path : List Nat) → Nat
  | _ :: rest, i :: path => place (base + 1 + i * objects rest) rest path
  | _, _ => base

/-- A path to a sub-array: one index for each of some dimensions, but not for all. -/
inductive Within : (path lengths : List Nat) → Prop where
  /-- the array itself -/
  | here (c : Nat) (rest : List Nat) : Within [] (c :: rest)
  /-- a path in one of its elements -/
  | inside {i c : Nat} {path rest : List Nat} (hi : i < c) (h : Within path rest) :
      Within (i :: path) (c :: rest)

variable {base : Nat} {path other lengths : List Nat}

/-- Elements lie one after the other. -/
theorem element_le {i c : Nat} (size : Nat) (hi : i < c) : i * size + size ≤ c * size := by
  rw [← Nat.succ_mul]
  exact Nat.mul_le_mul_right size hi

theorem base_le_place (base : Nat) (lengths path : List Nat) : base ≤ place base lengths path := by
  induction lengths generalizing base path with
  | nil => exact Nat.le_refl base
  | cons c rest ih =>
    cases path with
    | nil => exact Nat.le_refl base
    | cons i path => exact Nat.le_trans (by omega) (ih (base + 1 + i * objects rest) path)

/-- A sub-array lies within the room of the whole. -/
theorem place_lt (base : Nat) (h : Within path lengths) :
    place base lengths path < base + objects lengths := by
  induction h generalizing base with
  | here c rest =>
    simp only [place, objects]
    omega
  | @inside i c path rest hi _ ih =>
    have hplace := ih (base + 1 + i * objects rest)
    have hroom := element_le (objects rest) hi
    simp only [place, objects]
    omega

/-- Elements at different indexes have no place in common. -/
theorem place_lt_place {i j : Nat} (hij : i < j) (hpath : Within path lengths) :
    place (base + 1 + i * objects lengths) lengths path <
      place (base + 1 + j * objects lengths) lengths other := by
  have hfirst := place_lt (base + 1 + i * objects lengths) hpath
  have hroom := element_le (objects lengths) hij
  have hsecond := base_le_place (base + 1 + j * objects lengths) lengths other
  omega

/-- **Places.** Sub-arrays at different paths lie at different places. -/
theorem place_injective (hpath : Within path lengths) (hother : Within other lengths)
    (heq : place base lengths path = place base lengths other) : path = other := by
  -- subarrays follow each other and do not overlap, so the first index at which paths differ tells
  -- their places apart
  induction hpath generalizing base other with
  | here c rest =>
    cases hother with
    | here => rfl
    | @inside j _ other _ _ _ =>
      have hle := base_le_place (base + 1 + j * objects rest) rest other
      simp only [place] at heq
      omega
  | @inside i c path rest hi hpath ih =>
    cases hother with
    | here =>
      have hle := base_le_place (base + 1 + i * objects rest) rest path
      simp only [place] at heq
      omega
    | @inside j _ other _ _ hother =>
      simp only [place] at heq
      rcases Nat.lt_trichotomy i j with hij | rfl | hij
      · exact absurd heq (Nat.ne_of_lt (place_lt_place hij hpath))
      · rw [ih hother heq]
      · exact absurd heq (Nat.ne_of_gt (place_lt_place hij hother))

/-! ## What lies there -/

/-- An array of arrays with these lengths lies at a place, with all that belongs to it. -/
def Lies (heap : Array HeapObject) : RefType → List Nat → (base : Nat) → Prop
  | _, [], _ => True
  | type, [c], base => ∃ element, type.element? = some element ∧
      heap[base]? = some (.array type (Array.replicate c (Value.zero element)))
  | type, c :: d :: rest, base => ∃ inner, type.element? = some (.ref inner) ∧
      heap[base]? = some (.array type
        ((List.range c).map fun i => Value.ref ⟨base + 1 + i * objects (d :: rest)⟩).toArray) ∧
      ∀ i < c, Lies heap inner (d :: rest) (base + 1 + i * objects (d :: rest))

/-- It matters only what is within the room of the whole. -/
theorem Lies.congr {heap heap' : Array HeapObject} {type : RefType}
    (h : Lies heap type lengths base)
    (hsame : ∀ k, base ≤ k → k < base + objects lengths → heap'[k]? = heap[k]?) :
    Lies heap' type lengths base := by
  induction lengths generalizing type base with
  | nil => trivial
  | cons c rest ih =>
    have hself : heap'[base]? = heap[base]? := hsame base (Nat.le_refl _) (by simp only [objects]; omega)
    cases rest with
    | nil =>
      obtain ⟨element, helement, hbase⟩ := h
      exact ⟨element, helement, hself.trans hbase⟩
    | cons d rest =>
      obtain ⟨inner, hinner, hbase, hall⟩ := h
      refine ⟨inner, hinner, hself.trans hbase, fun i hi => ih (hall i hi) fun k hk hlt => ?_⟩
      have hroom := element_le (objects (d :: rest)) hi
      refine hsame k (by omega) ?_
      rw [objects]
      omega

end Grid

/-! ## Sub-arrays -/

/-- The sub-array of an array at a path of indexes. -/
def Machine.subarray? (m : Machine) (r : Ref) : (path : List Nat) → Option Ref
  | [] => some r
  | i :: path =>
    match m.object? r with
    | some (.array _ values) => (values[i]?.bind Value.ref?).bind (m.subarray? · path)
    | _ => none

/-- The type without some of its dimensions, as long as it is a reference type. -/
def RefType.inner? (type : RefType) : (dimensions : Nat) → Option RefType
  | 0 => some type
  | n + 1 =>
    match type.element? with
    | some (.ref inner) => inner.inner? n
    | _ => none

open Grid

/-- **Sub-arrays.** The one at a path is where it has to be, has the length that the counts say, and
zero values for elements if it has no dimensions left. -/
theorem Grid.Lies.subarray {m : Machine} {type : RefType} {lengths path : List Nat} {base : Nat}
    (h : Lies m.heap type lengths base) (hpath : Within path lengths) :
    m.subarray? ⟨base⟩ path = some ⟨place base lengths path⟩ ∧
      ∃ inner values, type.inner? path.length = some inner ∧
        m.object? ⟨place base lengths path⟩ = some (.array inner values) ∧
        lengths[path.length]? = some values.size ∧
        (path.length + 1 = lengths.length →
          ∃ element, inner.element? = some element ∧ ∀ v ∈ values, v = Value.zero element) := by
  induction hpath generalizing type base with
  | here c rest =>
    refine ⟨rfl, type, ?_⟩
    cases rest with
    | nil =>
      obtain ⟨element, helement, hbase⟩ := h
      refine ⟨_, rfl, hbase, by simp, fun _ => ⟨element, helement, fun v hv => ?_⟩⟩
      exact (Array.mem_replicate.mp hv).2
    | cons d rest =>
      obtain ⟨inner, hinner, hbase, -⟩ := h
      exact ⟨_, rfl, hbase, by simp, fun hlast => by simp at hlast⟩
  | @inside i c path rest hi hpath ih =>
    cases rest with
    | nil => cases hpath
    | cons d rest =>
      obtain ⟨inner, hinner, hbase, hall⟩ := h
      obtain ⟨hsub, innermost, values, htype, hobject, hlength, hlast⟩ := ih (hall i hi)
      refine ⟨?_, innermost, values, ?_, hobject, hlength, fun h => hlast (Nat.succ.inj h)⟩
      · have hthere : m.object? ⟨base⟩ = _ := hbase
        simp only [Machine.subarray?, hthere, List.getElem?_toArray, List.getElem?_map,
          List.getElem?_range hi, Option.map_some, Option.bind_some, Value.ref?]
        exact hsub
      · simp only [List.length_cons, RefType.inner?, hinner, htype]

/-! ## Allocating -/

namespace Run

/-- The counts that are looked at: those up to the first one that is not positive. -/
def examined : List Int32 → List Int32
  | [] => []
  | count :: rest => if 0 < count then count :: examined rest else [count]

/-- The lengths that counts stand for. -/
def lengths (counts : List Int32) : List Nat := counts.map (·.toInt.toNat)

/-- The machine has the same objects and more, and nothing else of it is different. -/
structure Extends (m m' : Machine) : Prop where
  /-- nothing but the heap has changed -/
  rest : m' = { m with heap := m'.heap }
  /-- objects are as they were -/
  old : ∀ k < m.heap.size, m'.heap[k]? = m.heap[k]?

variable {type inner : RefType} {counts : List Int32} {m m' m'' : Machine}

theorem Extends.alloc (m : Machine) (o : HeapObject) : Extends m (m.alloc o).2 where
  rest := rfl
  old k hk := by
    rw [Machine.alloc, Array.getElem?_push, if_neg (Nat.ne_of_lt hk)]

theorem Extends.trans (h : Extends m m') (h' : Extends m' m'') (hsize : m.heap.size ≤ m'.heap.size) :
    Extends m m'' where
  rest := by rw [h'.rest, h.rest]
  old k hk := by rw [h'.old k (Nat.lt_of_lt_of_le hk hsize), h.old k hk]

/-- A new object may still change. -/
theorem Extends.put (h : Extends m m') {r : Ref} (hr : m.heap.size ≤ r.index) (o : HeapObject) :
    Extends m (m'.put r o) where
  rest := by rw [Machine.put, h.rest]
  old k hk := by
    rw [Machine.put, Array.getElem?_setIfInBounds_ne (by omega), h.old k hk]

/-- What it is to allocate an array of arrays with these lengths, whatever the machine. -/
def Allocates (run : Run Ref) (type : RefType) (lengths : List Nat) : Prop :=
  ∀ m : Machine, ∃ m', run m = .ok ⟨m.heap.size⟩ m' ∧ Extends m m' ∧
    m'.heap.size = m.heap.size + objects lengths ∧ Lies m'.heap type lengths m.heap.size

/-- Several of them lie one after the other. -/
theorem repeated_allocates {run : Run Ref} {lengths : List Nat} {n : Nat}
    (h : 0 < n → Allocates run inner lengths) (m : Machine) :
    ∃ m', repeated run n m =
        .ok ((List.range n).map fun i => (⟨m.heap.size + i * objects lengths⟩ : Ref)) m' ∧
      Extends m m' ∧ m'.heap.size = m.heap.size + n * objects lengths ∧
      ∀ i < n, Lies m'.heap inner lengths (m.heap.size + i * objects lengths) := by
  -- each round takes the same number of objects, so the places are evenly spaced
  induction n generalizing m with
  | zero => exact ⟨m, rfl, ⟨rfl, fun _ _ => rfl⟩, by simp, nofun⟩
  | succ n ih =>
    obtain ⟨m₁, hrun, hextends, hsize, hlies⟩ := h (Nat.succ_pos n) m
    obtain ⟨m₂, hrest, hextends', hsize', hall⟩ := ih (fun _ => h (Nat.succ_pos n)) m₁
    have hstep : ∀ i, m₁.heap.size + i * objects lengths =
        m.heap.size + (i + 1) * objects lengths := fun i => by
      rw [hsize, Nat.succ_mul]
      omega
    refine ⟨m₂, ?_, hextends.trans hextends' (by omega), ?_, fun i hi => ?_⟩
    · simp only [repeated, bind, EStateM.bind, hrun, hrest, hstep, List.range_succ_eq_map,
        List.map_cons, List.map_map, Nat.zero_mul, Nat.add_zero]
      rfl
    · rw [hsize', hstep]
    · cases i with
      | zero =>
        rw [Nat.zero_mul, Nat.add_zero]
        exact hlies.congr fun k _ hk => hextends'.old k (by omega)
      | succ i =>
        rw [← hstep]
        exact hall i (Nat.lt_of_succ_lt_succ hi)

/-- An array type has elements; with more than one dimension these are arrays as well. -/
theorem element_of_dimensions {n : Nat} (h : n + 1 ≤ type.dimensions) :
    ∃ element, type.element? = some element ∧
      (1 ≤ n → ∃ inner, element = .ref inner ∧ n ≤ inner.dimensions) := by
  match type with
  | .object _ => cases h
  | .objectArray 0 _ | .primitiveArray 0 _ =>
    refine ⟨_, rfl, fun hn => ?_⟩
    simp only [RefType.dimensions] at h
    omega
  | .objectArray (extra + 1) _ | .primitiveArray (extra + 1) _ =>
    refine ⟨_, rfl, fun _ => ⟨_, rfl, ?_⟩⟩
    simp only [RefType.dimensions] at h ⊢
    omega

theorem zero_le_of_pos {count : Int32} (h : 0 < count) : ¬ count < 0 := by
  rw [Int32.lt_iff_toInt_lt] at h ⊢
  omega

/-- **Rectangular arrays.** If no negative count is looked at, all sub-arrays are there. -/
theorem allocateArrays_lies (hsome : counts ≠ []) (hdimensions : counts.length ≤ type.dimensions)
    (hcounts : ∀ count ∈ examined counts, ¬ count < 0) :
    Allocates (allocateArrays type counts) type (lengths counts) := by
  induction counts generalizing type with
  | nil => exact absurd rfl hsome
  | cons count rest ih =>
    intro m
    have hcount : ¬ count < 0 := hcounts count (by simp only [examined]; split <;> simp)
    obtain ⟨element, helement, hinner⟩ := element_of_dimensions hdimensions
    have houter := congrFun (allocateArray_of_nonneg hcount helement) m
    have hextends := Extends.alloc m
      (.array type (Array.replicate count.toInt.toNat (Value.zero element)))
    have hself := Machine.object?_alloc_self m
      (.array type (Array.replicate count.toInt.toNat (Value.zero element)))
    have hsize : (m.alloc (.array type
        (Array.replicate count.toInt.toNat (Value.zero element)))).2.heap.size = m.heap.size + 1 :=
      Array.size_push _
    cases rest with
    | nil => exact ⟨_, houter, hextends, by simp [lengths, objects], element, helement, hself⟩
    | cons count' rest =>
      obtain ⟨inner, rfl, hdeep⟩ := hinner (Nat.succ_pos _)
      have hinners : 0 < count.toInt.toNat →
          Allocates (allocateArrays inner (count' :: rest)) inner (lengths (count' :: rest)) := by
        intro hpos
        have hlt : 0 < count := by
          rw [Int32.lt_iff_toInt_lt, Int32.toInt_zero]
          omega
        refine ih (List.cons_ne_nil _ _) hdeep fun c hc => hcounts c ?_
        rw [examined, if_pos hlt]
        exact List.mem_cons_of_mem _ hc
      -- the outer array is filled last, and lies before all of the inner ones
      replace houter : allocateArray type count m = .ok ⟨m.heap.size⟩ (m.alloc _).2 := houter
      generalize (m.alloc (.array type
        (Array.replicate count.toInt.toNat (Value.zero (.ref inner))))).2 = m₁ at *
      obtain ⟨m₂, hrepeated, hextends', hsize', hall⟩ := repeated_allocates hinners m₁
      rw [hsize] at hrepeated hsize' hall
      have hlt : m.heap.size < m₂.heap.size := by omega
      refine ⟨m₂.put ⟨m.heap.size⟩ (.array type ((List.range count.toInt.toNat).map fun i =>
        Value.ref ⟨m.heap.size + 1 + i * objects (lengths (count' :: rest))⟩).toArray), ?_,
        (hextends.trans hextends' (by omega)).put (Nat.le_refl _) _, ?_, inner, helement, ?_,
        fun i hi => ?_⟩
      · simp only [allocateArrays, bind, EStateM.bind, houter, helement, hrepeated, setObject,
          modify, modifyGet, MonadStateOf.modifyGet, EStateM.modifyGet, List.map_map]
        rfl
      · rw [Machine.put, Array.size_setIfInBounds, hsize', Nat.add_assoc]
        rfl
      · exact Array.getElem?_setIfInBounds_self_of_lt hlt
      · refine (hall i hi).congr fun k hk _ => ?_
        rw [Machine.put, Array.getElem?_setIfInBounds_ne (show m.heap.size ≠ k by omega)]

/-- An exception was thrown for a negative count, and no object changed. -/
structure Refuses (count : Int32) (m : Machine) (r : Ref) (m' : Machine) : Prop where
  /-- the exception says the count -/
  thrown : ∃ text, m'.strings.lookup s!"{count.toInt}" = some text ∧
    m'.object? r = some (.instance .negativeArraySizeException [(.message, .ref text)])
  /-- objects are as they were -/
  old : ∀ k < m.heap.size, m'.heap[k]? = m.heap[k]?

theorem lookup_intern (m : Machine) (s : String) :
    (m.intern s).2.strings.lookup s = some (m.intern s).1 := by
  cases hs : m.strings.lookup s with
  | some r =>
    rw [Machine.intern_of_some hs]
    exact hs
  | none =>
    rw [Machine.intern_of_none hs]
    exact List.lookup_cons_self

theorem size_intern (m : Machine) (s : String) : m.heap.size ≤ (m.intern s).2.heap.size := by
  cases hs : m.strings.lookup s with
  | some r =>
    rw [Machine.intern_of_some hs]
  | none =>
    rw [Machine.intern_of_none hs]
    exact Nat.le_of_lt (Nat.lt_of_lt_of_eq (Nat.lt_succ_self _) (Array.size_push _).symm)

theorem getElem?_intern (m : Machine) (s : String) {k : Nat} (hk : k < m.heap.size) :
    (m.intern s).2.heap[k]? = m.heap[k]? := by
  cases hs : m.strings.lookup s with
  | some r =>
    rw [Machine.intern_of_some hs]
  | none =>
    rw [Machine.intern_of_none hs]
    exact (Extends.alloc m (.string s)).old k hk

theorem allocateArray_negative {count : Int32} (type : RefType) (hcount : count < 0) (m : Machine) :
    ∃ r m', allocateArray type count m = .error (.exception r) m' ∧ Refuses count m r m' := by
  have hraise : allocateArray type count m =
      .error (.exception ⟨(m.intern s!"{count.toInt}").2.heap.size⟩)
        (((m.intern s!"{count.toInt}").2.alloc (.instance .negativeArraySizeException
          [(.message, .ref (m.intern s!"{count.toInt}").1)])).2) := by
    simp only [allocateArray, hcount, if_true]
    rfl
  refine ⟨_, _, hraise, ⟨_, lookup_intern m _, Machine.object?_alloc_self _ _⟩, fun k hk => ?_⟩
  have hlt := Nat.lt_of_lt_of_le hk (size_intern m s!"{count.toInt}")
  exact ((Extends.alloc _ _).old k hlt).trans (getElem?_intern m _ hk)

/-- **Negative counts.** One that is looked at raises an exception. -/
theorem allocateArrays_negative {count : Int32} (hcount : count < 0) (hmem : count ∈ examined counts)
    (hdimensions : counts.length ≤ type.dimensions) (m : Machine) :
    ∃ r m', allocateArrays type counts m = .error (.exception r) m' ∧ Refuses count m r m' := by
  induction counts generalizing type m with
  | nil => cases hmem
  | cons first rest ih =>
    simp only [examined] at hmem
    split at hmem
    · rename_i hfirst
      have hrest : count ∈ examined rest := by
        rcases List.mem_cons.mp hmem with rfl | hrest
        · exact absurd hcount (zero_le_of_pos hfirst)
        · exact hrest
      cases rest with
      | nil => cases hrest
      | cons second rest =>
        obtain ⟨element, helement, hinner⟩ := element_of_dimensions hdimensions
        obtain ⟨inner, rfl, hdeep⟩ := hinner (Nat.succ_pos _)
        have houter : allocateArray type first m = .ok ⟨m.heap.size⟩ (m.alloc _).2 :=
          congrFun (allocateArray_of_nonneg (zero_le_of_pos hfirst) helement) m
        have hextends := Extends.alloc m
          (.array type (Array.replicate first.toInt.toNat (Value.zero (.ref inner))))
        have hsize : (m.alloc (.array type
            (Array.replicate first.toInt.toNat (Value.zero (.ref inner))))).2.heap.size =
              m.heap.size + 1 := Array.size_push _
        generalize (m.alloc (.array type
          (Array.replicate first.toInt.toNat (Value.zero (.ref inner))))).2 = m₁ at *
        -- the first of the inner arrays is refused, and there is a first one
        obtain ⟨r, m', hrun, hrefuses⟩ := ih hrest hdeep m₁
        obtain ⟨n, hn⟩ : ∃ n, first.toInt.toNat = n + 1 := by
          rw [Int32.lt_iff_toInt_lt, Int32.toInt_zero] at hfirst
          exact ⟨first.toInt.toNat - 1, by omega⟩
        refine ⟨r, m', ?_, hrefuses.thrown, fun k hk => ?_⟩
        · simp only [allocateArrays, bind, EStateM.bind, houter, helement, hn, repeated, hrun]
        · rw [hrefuses.old k (by omega), hextends.old k hk]
    · rename_i hfirst
      obtain rfl := List.mem_singleton.mp hmem
      obtain ⟨r, m', hrun, hrefuses⟩ := allocateArray_negative type hcount m
      refine ⟨r, m', ?_, hrefuses⟩
      cases rest with
      | nil => exact hrun
      | cons second rest => simp only [allocateArrays, bind, EStateM.bind, hrun]

end Run

/-! ## The instruction -/

namespace Step

section

variable {callees : Callees} {a : Activation} {m : Machine} {type : RefType} {counts : List Int32}
  {rest : List Value}

theorem popCounts_eq (counts taken : List Int32) (hstack : a.stack = counts.map Value.int ++ rest) :
    popCounts counts.length taken a m = .ok (counts.reverse ++ taken, { a with stack := rest }) m := by
  induction counts generalizing a taken with
  | nil =>
    obtain ⟨method, locals, stack, index⟩ := a
    cases hstack
    rfl
  | cons count counts ih =>
    obtain ⟨method, locals, stack, index⟩ := a
    cases hstack
    have hrest := ih (a := ⟨method, locals, counts.map Value.int ++ rest, index⟩) (count :: taken) rfl
    rw [List.reverse_cons, List.append_assoc]
    exact hrest

/-- The counts are on the stack, the last one on top. -/
theorem execute_newMultiArray (hstack : a.stack = counts.reverse.map Value.int ++ rest) :
    execute callees (.newMultiArray type counts.length) a m =
      match Run.allocateArrays type counts m with
      | .ok r m' => .ok (.next, { a with stack := .ref r :: rest }) m'
      | .error e m' => .error e m' := by
  have hcounts := popCounts_eq (m := m) counts.reverse [] hstack
  rw [List.length_reverse, List.reverse_reverse, List.append_nil] at hcounts
  simp only [execute, andNext, bind, StateT.bind, EStateM.bind, hcounts, liftM, monadLift,
    MonadLift.monadLift, StateT.lift]
  cases Run.allocateArrays type counts m <;> rfl

/-- **Arrays of arrays.** Counts are looked at up to the first one that is not positive. If that is a
negative one, an exception is thrown. Otherwise there is a new array whose sub-arrays have the lengths
that the counts say, each an object of its own, with zero values in the last dimension; and no object
that was there before is different. -/
theorem newMultiArray_rectangular (callees : Callees) (hsome : counts ≠ [])
    (hdimensions : counts.length ≤ type.dimensions)
    (hstack : a.stack = counts.reverse.map Value.int ++ rest) (m : Machine) :
    (∀ count ∈ Run.examined counts, count < 0 → ∃ r m',
      execute callees (.newMultiArray type counts.length) a m = .error (.exception r) m' ∧
      Run.Refuses count m r m') ∧
    ((∀ count ∈ Run.examined counts, ¬ count < 0) → ∃ r m',
      execute callees (.newMultiArray type counts.length) a m =
        .ok (.next, { a with stack := .ref r :: rest }) m' ∧
      Run.Extends m m' ∧
      (∀ path, Within path (Run.lengths counts) → ∃ s inner values,
        m'.subarray? r path = some s ∧ m.heap.size ≤ s.index ∧
        type.inner? path.length = some inner ∧ m'.object? s = some (.array inner values) ∧
        (Run.lengths counts)[path.length]? = some values.size ∧
        (path.length + 1 = counts.length →
          ∃ element, inner.element? = some element ∧ ∀ v ∈ values, v = Value.zero element)) ∧
      ∀ path other, Within path (Run.lengths counts) → Within other (Run.lengths counts) →
        m'.subarray? r path = m'.subarray? r other → path = other) := by
  rw [execute_newMultiArray hstack]
  constructor
  · intro count hmem hcount
    obtain ⟨r, m', hrun, hrefuses⟩ := Run.allocateArrays_negative hcount hmem hdimensions m
    exact ⟨r, m', by rw [hrun], hrefuses⟩
  · intro hcounts
    obtain ⟨m', hrun, hextends, -, hlies⟩ := Run.allocateArrays_lies hsome hdimensions hcounts m
    refine ⟨⟨m.heap.size⟩, m', by rw [hrun], hextends, fun path hpath => ?_,
      fun path other hpath hother heq => ?_⟩
    · obtain ⟨hsub, inner, values, htype, hobject, hlength, hlast⟩ := hlies.subarray hpath
      refine ⟨_, inner, values, hsub, base_le_place _ _ _, htype, hobject, hlength, fun h => hlast ?_⟩
      rw [h, Run.lengths, List.length_map]
    · rw [(hlies.subarray hpath).1, (hlies.subarray hother).1] at heq
      exact place_injective hpath hother (Ref.mk.inj (Option.some.inj heq))

end

namespace Pair

/-- Calls do not matter here. -/
def callees : Callees := ⟨fun _ _ _ => pure none, fun _ => pure ()⟩

/-- Arrays of arrays of numbers. -/
def type : RefType := .primitiveArray 1 .int

/-- An activation with two counts on its stack. -/
def counted (first second : Int32) : Activation := ⟨"Pair.run()V", #[], [.int second, .int first], 0⟩

end Pair

/-- Two rows of three are two objects; two rows of minus one are refused. -/
theorem newMultiArray_rectangular_pair :
    (∃ r m', execute Pair.callees (.newMultiArray Pair.type 2) (Pair.counted 2 (-1)) .new =
      .error (.exception r) m') ∧
    ∃ r m' b, execute Pair.callees (.newMultiArray Pair.type 2) (Pair.counted 2 3) .new =
      .ok (.next, b) m' ∧ m'.subarray? r [0] ≠ m'.subarray? r [1] := by
  have hminus : (Pair.counted 2 (-1)).stack = ([2, -1] : List Int32).reverse.map Value.int ++ [] := rfl
  have hthree : (Pair.counted 2 3).stack = ([2, 3] : List Int32).reverse.map Value.int ++ [] := rfl
  have htwo : ∀ n : Int32, [2, n].length ≤ Pair.type.dimensions := fun n => Nat.le_refl 2
  obtain ⟨hnegative, -⟩ := newMultiArray_rectangular Pair.callees (by decide) (htwo (-1)) hminus .new
  obtain ⟨-, hrectangular⟩ := newMultiArray_rectangular Pair.callees (by decide) (htwo 3) hthree .new
  obtain ⟨r, m', hrun, -⟩ := hnegative (-1) (by decide) (by decide)
  have hpositive : ∀ count ∈ Run.examined [2, 3], ¬ count < 0 := by
    rw [show Run.examined [2, 3] = [2, 3] by decide]
    simp only [List.forall_mem_cons]
    exact ⟨by decide, by decide, nofun⟩
  obtain ⟨s, m'', hrun', -, -, hdistinct⟩ := hrectangular hpositive
  refine ⟨⟨r, m', hrun⟩, s, m'', _, hrun', fun heq => ?_⟩
  have hwithin : ∀ i < 2, Within [i] (Run.lengths [2, 3]) := fun i hi => .inside hi (.here 3 [])
  cases hdistinct [0] [1] (hwithin 0 (by decide)) (hwithin 1 (by decide)) heq

/-- No rows of minus one are allowed: the second count is not looked at. -/
theorem newMultiArray_lenient : ∃ r b m',
    execute Pair.callees (.newMultiArray Pair.type 2) (Pair.counted 0 (-1)) .new =
      .ok (.next, b) m' ∧ b.stack = [.ref r] ∧ m'.object? r = some (.array Pair.type #[]) := by
  have hstack : (Pair.counted 0 (-1)).stack = ([0, -1] : List Int32).reverse.map Value.int ++ [] := rfl
  exact ⟨_, _, _, execute_newMultiArray hstack, rfl, rfl⟩

end Step

end Resumption
