import Resumption.Proofs.Instrument.Saving
import Resumption.Proofs.Instrument.Spilling

/-!
# Restoring

What the blocks of a restore do. Stores go into variables that may hold anything at that time, wide
arguments of the method included, so what counts is that the variables which are restored are apart
from each other and from the ones that restoring needs itself.

* **`straight_restoreElements`**: the elements of one array.
* **`straight_restoreData`**: the values of all kinds. The **cells** stored into are those of the
  saved values, and variables for arrays apart from everything in use.
* **`straight_restoreNulls`**: the locals that held null.
-/

namespace Resumption

namespace Body

variable {run : MethodRunner} {settings : Settings} {b : Activation} {s : List Value} {n : Nat}
  {m : Machine} {rest : List Instruction} {r : Ref}

/-! ## Calls of natives -/

theorem straight_getLocals (hserves : m.Serves settings) {state : MethodState}
    (h : m.object? r = some (.methodState state)) :
    straight (Run.callees run) (callVirtual Interface.MethodState.getLocals :: rest)
        (b.moved (.ref r :: s) n) m =
      straight (Run.callees run) rest (b.moved (state.locals :: s) (n + 1)) m :=
  straight_native (s := s) (hserves.standard (_, .stateObject .locals) (by decide))
    (Native.run_stateObject h .locals) rfl rfl rfl

theorem straight_getStack (hserves : m.Serves settings) {state : MethodState}
    (h : m.object? r = some (.methodState state)) :
    straight (Run.callees run) (callVirtual Interface.MethodState.getStack :: rest)
        (b.moved (.ref r :: s) n) m =
      straight (Run.callees run) rest (b.moved (state.stack :: s) (n + 1)) m :=
  straight_native (s := s) (hserves.standard (_, .stateObject .stack) (by decide))
    (Native.run_stateObject h .stack) rfl rfl rfl

theorem straight_getter (hserves : m.Serves settings) {d : DataArrays}
    (h : m.object? r = some (.data d)) (kind : ValueKind) :
    straight (Run.callees run) (callVirtual kind.getter :: rest) (b.moved (.ref r :: s) n) m =
      straight (Run.callees run) rest (b.moved (d.ofKind kind :: s) (n + 1)) m := by
  have hfound : m.natives.lookup kind.getter = some (.dataArray kind) :=
    hserves.standard (_, .dataArray kind) (by cases kind <;> decide)
  refine straight_native (s := s) hfound (Native.run_dataArray h kind) ?_ rfl rfl
  cases kind <;> rfl

/-! ## Elements -/

/-- The cell that a saved value goes back into. -/
def cellOf (value : SavedValue → Value) (saved : SavedValue) : Cell := (saved.slot, value saved)

/-- Copying the elements of an array back, from position `k` on. -/
theorem straight_restoreElements {kind : ValueKind} {array : Lease} {type : RefType}
    {value : SavedValue → Value} (items : List SavedValue) (k : Nat) (done : List Value)
    (harray : b.valueAt array.slot = .ref r)
    (ho : m.object? r = some (.array type (done ++ items.map value).toArray))
    (hk : done.length = k) (hsize : (done ++ items.map value).length ≤ 2 ^ 31)
    (hcasts : ∀ saved ∈ items, ∀ t, saved.cast = some t →
      Run.checkCast (value saved) t m = .ok () m)
    (hapart : ∀ saved ∈ items, Span.Apart ⟨array.slot, 1⟩ (cellOf value saved).span) :
    straight (Run.callees run)
        ((items.zipIdx k).flatMap fun (saved, index) => Layout.restoreElement kind array saved index)
        (b.moved s n) m =
      .ok ((b.storeAll (items.map (cellOf value))).moved s (n + ((items.zipIdx k).flatMap
        fun (saved, index) => Layout.restoreElement kind array saved index).length)) m := by
  -- the array is split at the element that is read next
  induction items generalizing b k done n with
  | nil => rfl
  | cons saved items ih =>
    have hget : (done ++ (saved :: items).map value).toArray[k]? = some (value saved) := by
      simp [← hk]
    have hlt : k < (done ++ (saved :: items).map value).length := by
      simpa using (Array.getElem?_eq_some_iff.mp hget).1
    have hfirst : ∀ more, straight (Run.callees run)
        (Layout.restoreElement kind array saved k ++ more) (b.moved s n) m =
          straight (Run.callees run) more ((b.store saved.slot (value saved)).moved s
            (n + (Layout.restoreElement kind array saved k).length)) m := by
      intro more
      simp only [Layout.restoreElement, Lease.load, List.cons_append, List.nil_append]
      rw [straight_load harray (by simp), straight_pushInt,
        straight_arrayLoad ho hget (Nat.lt_of_lt_of_le hlt hsize)]
      cases hcast : saved.cast with
      | none => exact straight_store
      | some t =>
        exact (straight_checkCast (hcasts saved (List.mem_cons_self ..) t hcast)).trans
          straight_store
    have hkept : (b.store saved.slot (value saved)).valueAt array.slot = .ref r :=
      (Activation.valueAt_store_of_apart (c := cellOf value saved)
        (by rw [harray]; exact hapart saved (List.mem_cons_self ..))).trans harray
    have hrest := ih (b := b.store saved.slot (value saved))
      (n := n + (Layout.restoreElement kind array saved k).length) (k + 1) (done ++ [value saved])
      hkept (by rw [List.append_assoc]; exact ho) (by rw [List.length_append, hk]; rfl)
      (by rw [List.append_assoc]; exact hsize)
      (fun saved' h => hcasts saved' (List.mem_cons_of_mem _ h))
      (fun saved' h => hapart saved' (List.mem_cons_of_mem _ h))
    rw [List.zipIdx_cons, List.flatMap_cons, hfirst, hrest, List.length_append, ← Nat.add_assoc]
    rfl

/-! ## All kinds -/

/-- What restoring needs to know of the values: where they are, and that they are what they were. -/
structure Restorable (l : Layout) (first : Nat) (held : List Lease) (m : Machine)
    (values : List SavedValue) (value : SavedValue → Value) : Prop where
  /-- values are of the kinds that they are saved by -/
  kinds : ∀ saved ∈ values, (value saved).HasKind saved.kind
  /-- casts succeed -/
  casts : ∀ saved ∈ values, ∀ t, saved.cast = some t → Run.checkCast (value saved) t m = .ok () m
  /-- there are not more values than an index can say -/
  size : values.length ≤ 2 ^ 31
  /-- the variables are apart from each other -/
  apart : values.Pairwise fun x y => (cellOf value x).span.Apart (cellOf value y).span
  /-- and from a variable for an array -/
  temporary : ∀ array : Lease, array.kind = .object → Separate first (array :: held) →
    ∀ saved ∈ values, Span.Apart ⟨array.slot, 1⟩ (cellOf value saved).span
  /-- and from the variable that holds the method state -/
  state : ∀ saved ∈ values, Span.Apart ⟨l.state.slot, 1⟩ (cellOf value saved).span

/-- A cell that restoring stores into: that of a saved value, or a variable for an array. -/
def IsRestored (first : Nat) (held : List Lease) (values : List SavedValue)
    (value : SavedValue → Value) (c : Cell) : Prop :=
  (∃ saved ∈ values, c = cellOf value saved) ∨
    ∃ array : Lease, array.kind = .object ∧ Separate first (array :: held) ∧
      c.1 = array.slot ∧ c.2.width = 1

theorem IsRestored.mono {first : Nat} {held : List Lease} {values values' : List SavedValue}
    {value : SavedValue → Value} {c : Cell} (h : IsRestored first held values value c)
    (hsub : ∀ saved ∈ values, saved ∈ values') : IsRestored first held values' value c := by
  rcases h with ⟨saved, hsaved, hc⟩ | harray
  · exact .inl ⟨saved, hsub saved hsaved, hc⟩
  · exact .inr harray

theorem mem_ofKind {kind : ValueKind} {values : List SavedValue} {saved : SavedValue}
    (h : saved ∈ values.filter (·.kind = kind)) : saved.kind = kind :=
  of_decide_eq_true (List.mem_filter.mp h).2

/-- The values of one kind. -/
theorem straight_restoreKind {l : Layout} {first : Nat} {held : List Lease} {getter : MethodRef}
    {values : List SavedValue} {value : SavedValue → Value} {kind : ValueKind}
    {code : List Instruction} {state : Ref} {v : Value} (hserves : m.Serves settings)
    (hcode : RestoresKind l first held getter values kind code)
    (hvalues : Restorable l first held m values value)
    (hstate : b.valueAt l.state.slot = .ref state)
    (hgetter : ∀ (b : Activation) (s : List Value) (n : Nat) (rest : List Instruction),
      straight (Run.callees run) (callVirtual getter :: rest) (b.moved (.ref state :: s) n) m =
        straight (Run.callees run) rest (b.moved (v :: s) (n + 1)) m)
    (hdata : m.HoldsData v values value) :
    ∃ cells, straight (Run.callees run) code (b.moved s n) m =
        .ok ((b.storeAll cells).moved s (n + code.length)) m ∧
      (∀ c ∈ cells, IsRestored first held (values.filter (·.kind = kind)) value c) ∧
      ∀ saved ∈ values.filter (·.kind = kind),
        (b.storeAll cells).valueAt saved.slot = value saved := by
  cases hcode with
  | nothing hnone =>
    rw [hnone]
    exact ⟨[], rfl, (by simp), (by simp)⟩
  | elements array hkind hseparate =>
    obtain ⟨r, d, rfl, hd, harrays⟩ := hdata
    have hfilter : ∀ saved ∈ values.filter (·.kind = kind), saved ∈ values := fun _ h =>
      (List.mem_filter.mp h).1
    have hpairwise := hvalues.apart.filter (·.kind = kind)
    rcases harrays kind with ⟨hnone, hnull⟩ | ⟨r', type, -, hr', ho⟩
    · -- there is nothing of this kind after all, so the array is null and is not looked at
      replace hnone := List.map_eq_nil_iff.mp hnone
      refine ⟨[(array.slot, .null)], ?_, fun c hc => ?_, by rw [hnone]; simp⟩
      · simp only [Layout.restoreFrom, Lease.load, Lease.store, List.cons_append, List.nil_append]
        rw [straight_load hstate (by simp), hgetter, straight_getter hserves hd, straight_store,
          hnull,
          hnone]
        rfl
      · rw [List.mem_singleton.mp hc]
        exact .inr ⟨array, hkind, hseparate, rfl, rfl⟩
    · have hsize : ((values.filter (·.kind = kind)).map value).length ≤ 2 ^ 31 := by
        rw [List.length_map]
        exact Nat.le_trans (List.length_filter_le _ _) hvalues.size
      refine ⟨(array.slot, .ref r') :: (values.filter (·.kind = kind)).map (cellOf value), ?_,
        fun c hc => ?_, fun saved hsaved => ?_⟩
      · simp only [Layout.restoreFrom, Lease.load, Lease.store, List.cons_append, List.nil_append]
        rw [straight_load hstate (by simp), hgetter, straight_getter hserves hd, straight_store, hr']
        refine (straight_restoreElements (values.filter (·.kind = kind)) 0 []
          (Activation.valueAt_store_self b _ _) ho rfl hsize
          (fun saved h => hvalues.casts saved (hfilter saved h))
          (fun saved h => hvalues.temporary array hkind hseparate saved (hfilter saved h))).trans ?_
        rw [Activation.storeAll_cons]
        simp only [List.length_cons]
        congr 2
        omega
      · rcases List.mem_cons.mp hc with rfl | hc
        · exact .inr ⟨array, hkind, hseparate, rfl, rfl⟩
        · obtain ⟨saved, hsaved, rfl⟩ := List.mem_map.mp hc
          exact .inl ⟨saved, hsaved, rfl⟩
      · rw [Activation.storeAll_cons]
        exact Activation.valueAt_storeAll_of_mem (List.pairwise_map.mpr hpairwise)
          (c := cellOf value saved) (List.mem_map_of_mem hsaved)

/-- A cell that is apart from those that restoring stores into stays. -/
theorem valueAt_of_restored {first : Nat} {held : List Lease} {values : List SavedValue}
    {value : SavedValue → Value} {cells : List Cell}
    (hcells : ∀ c ∈ cells, IsRestored first held values value c) {slot : Nat} {v : Value}
    (hv : b.valueAt slot = v)
    (hvalues : ∀ saved ∈ values, Span.Apart ⟨slot, v.width⟩ (cellOf value saved).span)
    (harrays : ∀ array : Lease, array.kind = .object → Separate first (array :: held) →
      Span.Apart ⟨slot, v.width⟩ ⟨array.slot, 1⟩) :
    (b.storeAll cells).valueAt slot = v := by
  refine Activation.valueAt_storeAll_of_apart hv fun c hc => ?_
  rcases hcells c hc with ⟨saved, hsaved, rfl⟩ | ⟨array, hkind, hseparate, hslot, hwidth⟩
  · exact hvalues saved hsaved
  · rw [Cell.span, hslot, hwidth]
    exact harrays array hkind hseparate

/-- **The values of all kinds.** -/
theorem straight_restoreKinds {l : Layout} {first : Nat} {held : List Lease} {getter : MethodRef}
    {values : List SavedValue} {value : SavedValue → Value} {kinds : List ValueKind}
    {blocks : List (List Instruction)} {state : Ref} {v : Value} (hserves : m.Serves settings)
    (hblocks : List.Forall₂ (RestoresKind l first held getter values) kinds blocks)
    (hnodup : kinds.Nodup) (hvalues : Restorable l first held m values value)
    (hstate : b.valueAt l.state.slot = .ref state) (hheld : l.state ∈ held)
    (hstateKind : l.state.kind = .object)
    (hgetter : ∀ (b : Activation) (s : List Value) (n : Nat) (rest : List Instruction),
      straight (Run.callees run) (callVirtual getter :: rest) (b.moved (.ref state :: s) n) m =
        straight (Run.callees run) rest (b.moved (v :: s) (n + 1)) m)
    (hdata : m.HoldsData v values value) :
    ∃ cells, straight (Run.callees run) blocks.flatten (b.moved s n) m =
        .ok ((b.storeAll cells).moved s (n + blocks.flatten.length)) m ∧
      (∀ c ∈ cells, IsRestored first held (values.filter (·.kind ∈ kinds)) value c) ∧
      ∀ saved ∈ values, saved.kind ∈ kinds →
        (b.storeAll cells).valueAt saved.slot = value saved := by
  induction hblocks generalizing b n with
  | nil => exact ⟨[], rfl, nofun, nofun⟩
  | @cons kind code kinds blocks hcode hblocks ih =>
    obtain ⟨hfresh, hnodup⟩ := List.nodup_cons.mp hnodup
    obtain ⟨cells₁, hrun₁, hcells₁, hdone₁⟩ := straight_restoreKind (s := s) (n := n) hserves hcode
      hvalues hstate hgetter hdata
    -- a variable for an array is apart from the one that holds the method state
    have harrays : ∀ array : Lease, array.kind = .object → Separate first (array :: held) →
        Span.Apart ⟨l.state.slot, (Value.ref state).width⟩ ⟨array.slot, 1⟩ := by
      intro array hkind hseparate
      have := (List.pairwise_cons.mp hseparate.apart).1 l.state hheld
      rw [Lease.span_object hkind, Lease.span_object hstateKind] at this
      exact this.symm
    have hstate₁ : (b.storeAll cells₁).valueAt l.state.slot = .ref state :=
      valueAt_of_restored hcells₁ hstate
        (fun saved h => hvalues.state saved (List.mem_filter.mp h).1) harrays
    obtain ⟨cells₂, hrun₂, hcells₂, hdone₂⟩ := ih (n := n + code.length) hnodup hstate₁
    refine ⟨cells₁ ++ cells₂, ?_, fun c hc => ?_, fun saved hsaved hkind => ?_⟩
    · rw [List.flatten_cons, straight_append hrun₁, hrun₂, List.length_append,
        Activation.storeAll_append, Nat.add_assoc]
    · rcases List.mem_append.mp hc with hc | hc
      · exact (hcells₁ c hc).mono fun saved hsaved => List.mem_filter.mpr
          ⟨(List.mem_filter.mp hsaved).1, by simpa using .inl (mem_ofKind hsaved)⟩
      · exact (hcells₂ c hc).mono fun saved hsaved => List.mem_filter.mpr
          ⟨(List.mem_filter.mp hsaved).1, by
            simpa using .inr (of_decide_eq_true (List.mem_filter.mp hsaved).2)⟩
    · rw [Activation.storeAll_append]
      rcases List.mem_cons.mp hkind with hkind | hkind
      · -- a value of the first kind stays: the later blocks store into other variables
        refine valueAt_of_restored hcells₂ (hdone₁ saved (by simpa using ⟨hsaved, hkind⟩))
          (fun saved' hsaved' => ?_) (fun array hobject hseparate =>
            (hvalues.temporary array hobject hseparate saved hsaved).symm)
        obtain ⟨hin, hkind'⟩ := List.mem_filter.mp hsaved'
        have : Std.Symm fun x y => (cellOf value x).span.Apart (cellOf value y).span :=
          ⟨fun _ _ h => h.symm⟩
        refine hvalues.apart.forall hsaved hin ?_
        rintro rfl
        exact hfresh (hkind ▸ of_decide_eq_true hkind')
      · exact hdone₂ saved hsaved hkind

/-- **All saved values.** -/
theorem straight_restoreData {l : Layout} {first : Nat} {held : List Lease} {getter : MethodRef}
    {values : List SavedValue} {value : SavedValue → Value} {code : List Instruction} {state : Ref}
    {v : Value} (hserves : m.Serves settings)
    (hcode : RestoresData l first held getter values code)
    (hvalues : Restorable l first held m values value)
    (hstate : b.valueAt l.state.slot = .ref state) (hheld : l.state ∈ held)
    (hstateKind : l.state.kind = .object)
    (hgetter : ∀ (b : Activation) (s : List Value) (n : Nat) (rest : List Instruction),
      straight (Run.callees run) (callVirtual getter :: rest) (b.moved (.ref state :: s) n) m =
        straight (Run.callees run) rest (b.moved (v :: s) (n + 1)) m)
    (hdata : m.HoldsData v values value) :
    ∃ cells, straight (Run.callees run) code (b.moved s n) m =
        .ok ((b.storeAll cells).moved s (n + code.length)) m ∧
      (∀ c ∈ cells, IsRestored first held values value c) ∧
      ∀ saved ∈ values, (b.storeAll cells).valueAt saved.slot = value saved := by
  obtain ⟨blocks, hblocks, rfl⟩ := hcode
  obtain ⟨cells, hrun, hcells, hdone⟩ := straight_restoreKinds (s := s) (n := n) hserves hblocks
    (by decide) hvalues hstate hheld hstateKind hgetter hdata
  exact ⟨cells, hrun, fun c hc => (hcells c hc).mono fun _ hsaved => (List.mem_filter.mp hsaved).1,
    fun saved hsaved => hdone saved hsaved (by cases saved.kind <;> decide)⟩

/-! ## Locals that held null -/

/-- The cells that null goes back into. -/
def nullCells (slots : List Nat) : List Cell := slots.map fun slot => (slot, .null)

theorem restoreNulls_length (slots : List Nat) :
    (Layout.restoreNulls slots).length = 2 * slots.length := by
  induction slots with
  | nil => rfl
  | cons slot slots ih =>
    simp only [Layout.restoreNulls, List.flatMap_cons, List.length_append, List.length_cons,
      List.length_nil] at ih ⊢
    omega

theorem straight_restoreNulls {callees : Callees} (slots : List Nat) :
    straight callees (Layout.restoreNulls slots) (b.moved s n) m =
      .ok ((b.storeAll (nullCells slots)).moved s (n + (Layout.restoreNulls slots).length)) m := by
  rw [restoreNulls_length]
  induction slots generalizing b n with
  | nil => rfl
  | cons slot slots ih =>
    have hlength : n + 2 * (slot :: slots).length = n + 1 + 1 + 2 * slots.length := by
      simp only [List.length_cons]
      omega
    rw [hlength]
    exact (straight_pushNull.trans straight_store).trans ih

end Body

end Resumption
