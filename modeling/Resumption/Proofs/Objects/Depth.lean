import Resumption.Machine.ObjectFormat
import Resumption.Proofs.Snapshot.RoundTrip

/-!
# Writing objects ends

An object is written once, so objects inside of one another are at most as many levels deep as there
are objects that were not written yet (`unwritten`). With more levels than that, it makes no
difference how many there are (`writeReference_agree`), so the number of levels with which a writer
starts is no limit (`writeReference_levels`). Cycles end for the same reason.
-/

namespace Resumption.ObjectFormat

/-- How many objects of the heap were not written yet. -/
def unwritten (heap : Array HeapObject) (s : Written) : Nat :=
  ((Finset.range heap.size).filter fun index => s.lookup ⟨index⟩ = none).card

variable {heap : Array HeapObject} {s s' : Written} {n : Nat} {α β : Type}

theorem unwritten_le (heap : Array HeapObject) (s : Written) : unwritten heap s ≤ heap.size :=
  (Finset.card_filter_le _ _).trans (Finset.card_range _).le

/-- Writing a new object leaves one less. -/
theorem unwritten_cons {r : Ref} {o : HeapObject} (ho : heap[r.index]? = some o)
    (hnew : s.lookup r = none) (index : Nat) :
    unwritten heap ((r, index) :: s) < unwritten heap s := by
  have hlt : r.index < heap.size := (Array.getElem?_eq_some_iff.mp ho).1
  refine Finset.card_lt_card (Finset.ssubset_iff_subset_ne.mpr ⟨fun k hk => ?_, fun heq => ?_⟩)
  · obtain ⟨hk, hnone⟩ := Finset.mem_filter.mp hk
    refine Finset.mem_filter.mpr ⟨hk, ?_⟩
    by_cases hkr : (⟨k⟩ : Ref) = r
    · simp [List.lookup, hkr] at hnone
    · simpa only [List.lookup, beq_false_of_ne hkr] using hnone
  · have hmem : r.index ∈ (Finset.range heap.size).filter fun k => s.lookup ⟨k⟩ = none :=
      Finset.mem_filter.mpr ⟨Finset.mem_range.mpr hlt, hnew⟩
    rw [← heq] at hmem
    have hnone := (Finset.mem_filter.mp hmem).2
    simp [List.lookup] at hnone

/-- Two ways of writing do the same while at most `n` objects are left, and leave no more than
there were. -/
def Agree (heap : Array HeapObject) (n : Nat) (x y : Writing Written α) : Prop :=
  ∀ s, unwritten heap s ≤ n →
    x s = y s ∧ ∀ a s', x s = .ok (a, s') → unwritten heap s' ≤ unwritten heap s

namespace Agree

theorem pure (a : α) : Agree heap n (Pure.pure a) (Pure.pure a) := by
  intro s _
  refine ⟨rfl, fun b s' h => ?_⟩
  cases h
  exact Nat.le_refl _

theorem lift (x : Except SnapshotError α) :
    Agree heap n (liftM x : Writing Written α) (liftM x : Writing Written α) := by
  intro s _
  refine ⟨rfl, fun a s' h => ?_⟩
  cases x with
  | ok b =>
    cases h
    exact Nat.le_refl _
  | error e => cases h

theorem throw (e : SnapshotError) :
    Agree heap n (MonadExcept.throw e : Writing Written α) (MonadExcept.throw e) := by
  intro s _
  refine ⟨rfl, fun a s' h => ?_⟩
  cases h

theorem bind {x y : Writing Written α} {f g : α → Writing Written β} (hx : Agree heap n x y)
    (hf : ∀ a, Agree heap n (f a) (g a)) : Agree heap n (x >>= f) (y >>= g) := by
  intro s hs
  obtain ⟨heq, hleft⟩ := hx s hs
  cases hxs : x s with
  | error e =>
    have hfails : (x >>= f) s = .error e ∧ (y >>= g) s = .error e := by
      simp only [Bind.bind, StateT.bind, Except.bind, ← heq, hxs, and_self]
    rw [hfails.1, hfails.2]
    exact ⟨rfl, nofun⟩
  | ok p =>
    obtain ⟨a, s₁⟩ := p
    have hle := hleft a s₁ hxs
    rw [StateT.bind_of_ok hxs, StateT.bind_of_ok (heq ▸ hxs)]
    obtain ⟨heq', hleft'⟩ := hf a s₁ (Nat.le_trans hle hs)
    exact ⟨heq', fun b s₂ h => Nat.le_trans (hleft' b s₂ h) hle⟩

theorem each {write write' : α → Writing Written (List UInt8)}
    (h : ∀ a, Agree heap n (write a) (write' a)) (xs : List α) :
    Agree heap n (Snapshot.writeEach write xs) (Snapshot.writeEach write' xs) := by
  have hmapM : Agree heap n (xs.mapM write) (xs.mapM write') := by
    induction xs with
    | nil => exact .pure []
    | cons x xs ih =>
      rw [List.mapM_cons, List.mapM_cons]
      exact .bind (h x) fun _ => .bind ih fun _ => .pure _
  exact .bind hmapM fun _ => .pure _

end Agree

/-- Values are written alike if references are. -/
theorem writeWith_agree {reference reference' : Ref → Writing Written (List UInt8)}
    (h : ∀ r, Agree heap n (reference r) (reference' r)) (v : Value) :
    Agree heap n (writeWith reference v) (writeWith reference' v) := by
  cases v with
  | ref r => exact h r
  | _ => exact .pure _

/-- Objects are written alike if values are. -/
theorem writeObject_agree {value value' : Value → Writing Written (List UInt8)}
    (h : ∀ v, Agree heap n (value v) (value' v)) (o : HeapObject) :
    Agree heap n (writeObject value o) (writeObject value' o) := by
  cases o with
  | string text => exact .bind (.lift _) fun _ => .pure _
  | «instance» owner fields =>
    refine .bind (.lift _) fun name => ?_
    have hfields : Agree heap n
        (Snapshot.writeEach (fun field : MemberName × Value => do
          return (← writeString field.1.text) ++ (← value field.2)) fields)
        (Snapshot.writeEach (fun field : MemberName × Value => do
          return (← writeString field.1.text) ++ (← value' field.2)) fields) :=
      .each (fun field => .bind (.lift _) fun _ => .bind (h field.2) fun _ => .pure _) fields
    split
    · exact .bind (.throw _) fun _ => .bind hfields fun _ => .pure _
    · exact .bind hfields fun _ => .pure _
  | array type values =>
    refine .bind (.lift _) fun descriptor => ?_
    have hvalues := Agree.each h values.toList
    split
    · exact .bind (.throw _) fun _ => .bind hvalues fun _ => .pure _
    · exact .bind hvalues fun _ => .pure _
  | printStream => exact .pure _
  | continuation _ | methodState _ | data _ | lockState _ => exact .throw _

/-- What writing a reference does with one level more than its contents. -/
theorem writeReference_succ (heap : Array HeapObject) (handle : Ref) (levels : Nat) (r : Ref)
    (s : Written) :
    writeReference heap handle (levels + 1) r s =
      if r = handle then .ok ([5], s) else
        match s.lookup r with
        | some index => .ok (1 :: Bytes.ofNat 4 index, s)
        | none => match heap[r.index]? with
          | none => .error (.object (.notOnHeap r))
          | some o => writeObject (writeWith (writeReference heap handle levels)) o
              ((r, s.length) :: s) := by
  simp only [writeReference]
  split
  · rfl
  · show (match s.lookup r with | some _ => _ | none => _ : Writing Written _) s = _
    cases s.lookup r with
    | some index => rfl
    | none =>
      cases heap[r.index]? with
      | none => rfl
      | some o => rfl

/-- One more level makes no difference if there are more levels than objects left. -/
theorem writeReference_agree (handle : Ref) {levels : Nat} (h : n < levels) (r : Ref) :
    Agree heap n (writeReference heap handle levels r)
      (writeReference heap handle (levels + 1) r) := by
  induction levels generalizing n r with
  | zero => exact absurd h (Nat.not_lt_zero n)
  | succ levels ih =>
    intro s hs
    rw [writeReference_succ, writeReference_succ]
    split
    · exact Agree.pure [5] s hs
    · cases hnew : s.lookup r with
      | some index => exact Agree.pure (1 :: Bytes.ofNat 4 index) s hs
      | none =>
        cases ho : heap[r.index]? with
        | none => exact ⟨rfl, nofun⟩
        | some o =>
          -- the contents are written with one level less, and there is one object less
          have hless := unwritten_cons ho hnew s.length
          obtain ⟨hsame, hleft⟩ := writeObject_agree
            (writeWith_agree fun r' => ih (n := unwritten heap ((r, s.length) :: s)) (by omega) r') o
            ((r, s.length) :: s) (Nat.le_refl _)
          exact ⟨hsame, fun bytes s' hwrite => Nat.le_trans (hleft bytes s' hwrite) hless.le⟩

/-- **Levels are no limit.** -/
theorem writeReference_levels (heap : Array HeapObject) (handle : Ref) {levels : Nat}
    (h : heap.size < levels) :
    writeReference heap handle levels = writeReference heap handle (heap.size + 1) := by
  obtain ⟨extra, rfl⟩ := Nat.exists_eq_add_of_lt h
  induction extra with
  | zero => rfl
  | succ extra ih =>
    rw [← ih (by omega)]
    funext r s
    exact ((writeReference_agree handle (by omega) r) s (unwritten_le heap s)).1.symm

end Resumption.ObjectFormat
