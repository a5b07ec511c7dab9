import Resumption.Proofs.Instrument.Conformance
import Resumption.Proofs.Instrument.Shape

/-!
# Spilling the stack

Before a point the stack is moved into variables, from the top down, and put back from the bottom up.
A value of a null type needs no variable: it is dropped and pushed again.

* **`straight_spillStack`** and **`valueAt_spill`**: where the values are afterwards.
* **`straight_reloadStack`**: putting them back.
* **`straight_clearAfterCall`**: what a call left on the stack while saving is dropped.
-/

namespace Resumption

/-- The variables that a spilled stack takes, with their values. -/
def spillCells (leases : List (Option Lease)) (values : List Value) : List Cell :=
  (leases.zip values).filterMap fun (lease, v) => lease.map fun l => (l.slot, v)

/-- A value fits the variable it is spilled into; without a variable it is null. -/
def Spilled (lease : Option Lease) (v : Value) : Prop :=
  match lease with
  | some l => v.HasKind l.kind
  | none => v = .null

theorem Spilled.of_leased {m : Machine} {t : SlotType} {lease : Option Lease} {v : Value}
    (hlease : Leased t lease) (hv : v.Conforms m t) (ht : t ≠ .top) : Spilled lease v := by
  cases lease with
  | some l => exact hv.hasKind hlease.symm
  | none => exact hv.eq_null hlease.symm ht

theorem spilled_of_leased {m : Machine} {types : List SlotType} {leases : List (Option Lease)}
    {values : List Value} (hleases : List.Forall₂ Leased types leases)
    (hvalues : List.Forall₂ (fun t v => v.Conforms m t) types values)
    (htop : ∀ t ∈ types, t ≠ .top) : List.Forall₂ Spilled leases values := by
  induction hleases generalizing values with
  | nil =>
    cases hvalues
    exact .nil
  | cons hlease _ ih =>
    cases hvalues with
    | cons hv hvalues =>
      exact .cons (.of_leased hlease hv (htop _ (List.mem_cons_self ..)))
        (ih hvalues fun t ht => htop t (List.mem_cons_of_mem _ ht))

theorem mem_spillCells {leases : List (Option Lease)} {values : List Value} {c : Cell} :
    c ∈ spillCells leases values ↔ ∃ l, (some l, c.2) ∈ leases.zip values ∧ c.1 = l.slot := by
  simp only [spillCells, List.mem_filterMap, Prod.exists, Option.map_eq_some_iff]
  constructor
  · rintro ⟨lease, v, hmem, l, rfl, rfl⟩
    exact ⟨l, hmem, rfl⟩
  · rintro ⟨l, hmem, hslot⟩
    exact ⟨some l, c.2, hmem, l, rfl, by rw [← hslot]⟩

/-- The variables of a spilled stack are apart if the leases are. -/
theorem spillCells_apart {leases : List (Option Lease)} {values : List Value}
    (hspilled : List.Forall₂ Spilled leases values)
    (hapart : (leases.filterMap id).Pairwise fun l l' => l.span.Apart l'.span) :
    (spillCells leases values).Pairwise fun c d => c.span.Apart d.span := by
  induction hspilled with
  | nil => exact .nil
  | @cons lease v leases values hfirst hrest ih =>
    cases lease with
    | none => exact ih hapart
    | some l =>
      obtain ⟨hl, hothers⟩ := List.pairwise_cons.mp hapart
      refine List.pairwise_cons.mpr ⟨fun d hd => ?_, ih hothers⟩
      obtain ⟨l', hmem, hslot⟩ := mem_spillCells.mp hd
      have hin : l' ∈ leases.filterMap id :=
        List.mem_filterMap.mpr ⟨some l', (List.of_mem_zip hmem).1, rfl⟩
      have hspan : d.span = l'.span := by
        have := (List.forall₂_iff_zip.mp hrest).2 hmem
        rw [Cell.span, Lease.span, hslot, this.width_eq]
      have hspan' : Cell.span (l.slot, v) = l.span := by
        rw [Cell.span, Lease.span, hfirst.width_eq]
      rw [hspan, hspan']
      exact hl l' hin

namespace Body

variable {callees : Callees} {a : Activation} {s : List Value} {n : Nat} {m : Machine}

/-- Spilling from the top down. -/
theorem straight_spill {leases : List (Option Lease)} {values : List Value}
    (h : List.Forall₂ Spilled leases values) :
    straight callees (leases.map spillInto) (a.moved (values ++ s) n) m =
      .ok ((a.storeAll (spillCells leases values)).moved s (n + leases.length)) m := by
  induction h generalizing a n with
  | nil => rfl
  | @cons lease v leases values hfirst _ ih =>
    have hlength : n + (lease :: leases).length = n + 1 + leases.length := by
      simp only [List.length_cons]
      omega
    rw [hlength]
    cases lease with
    | some l => exact straight_store.trans ih
    | none =>
      cases hfirst
      exact (straight_pop rfl).trans ih

theorem zip_reverse {α β : Type} {xs : List α} {ys : List β} (h : xs.length = ys.length) :
    xs.reverse.zip ys.reverse = (xs.zip ys).reverse := by
  rw [List.zip_eq_zipWith, List.zip_eq_zipWith, ← List.reverse_zipWith h]

/-- Spilling a stack; leases and values are given bottom first. -/
theorem straight_spillStack {leases : List (Option Lease)} {values : List Value}
    (h : List.Forall₂ Spilled leases values) :
    straight callees (spillStack leases) (a.moved (values.reverse ++ s) n) m =
      .ok ((a.storeAll (spillCells leases values).reverse).moved s (n + (spillStack leases).length))
        m := by
  have hcells : (spillCells leases values).reverse = spillCells leases.reverse values.reverse := by
    rw [spillCells, spillCells, zip_reverse h.length_eq, List.filterMap_reverse]
  rw [spillStack, hcells, straight_spill (List.forall₂_reverse_iff.mpr h), List.length_map]

/-- Where a spilled value is. -/
theorem valueAt_spill {leases : List (Option Lease)} {values : List Value}
    (hspilled : List.Forall₂ Spilled leases values)
    (hapart : (leases.filterMap id).Pairwise fun l l' => l.span.Apart l'.span) {l : Lease} {v : Value}
    (hl : (some l, v) ∈ leases.zip values) :
    (a.storeAll (spillCells leases values).reverse).valueAt l.slot = v := by
  have hpairwise : (spillCells leases values).reverse.Pairwise fun c d => c.span.Apart d.span :=
    List.pairwise_reverse.mpr ((spillCells_apart hspilled hapart).imp fun h => h.symm)
  exact Activation.valueAt_storeAll_of_mem hpairwise (c := (l.slot, v))
    (List.mem_reverse.mpr (mem_spillCells.mpr ⟨l, hl, rfl⟩))

/-- Putting a stack back; leases and values are given bottom first. -/
theorem straight_reloadStack {leases : List (Option Lease)} {values : List Value}
    (h : List.Forall₂ Spilled leases values)
    (hat : ∀ l v, (some l, v) ∈ leases.zip values → a.valueAt l.slot = v) :
    straight callees (reloadStack leases) (a.moved s n) m =
      .ok (a.moved (values.reverse ++ s) (n + (reloadStack leases).length)) m := by
  induction h generalizing s n with
  | nil => rfl
  | @cons lease v leases values hfirst _ ih =>
    have hrest := fun l v hin => hat l v (List.mem_cons_of_mem _ hin)
    have hlength : n + (reloadStack (lease :: leases)).length =
        n + 1 + (reloadStack leases).length := by
      simp only [reloadStack, List.map_cons, List.length_cons]
      omega
    rw [hlength, List.reverse_cons, List.append_assoc]
    cases lease with
    | some l =>
      exact (straight_load (hat l v (List.mem_cons_self ..)) hfirst.ne_top).trans (ih hrest)
    | none =>
      cases hfirst
      exact straight_pushNull.trans (ih hrest)

/-- Dropping values by their widths, top first. -/
theorem straight_pops {widths : List Nat} {values : List Value}
    (h : List.Forall₂ (fun w v => Value.width v = w) widths values) :
    straight callees (widths.map dropTop) (a.moved (values ++ s) n) m =
      .ok (a.moved s (n + widths.length)) m := by
  induction h generalizing n with
  | nil => rfl
  | @cons w v widths values hfirst _ ih =>
    have hlength : n + (w :: widths).length = n + 1 + widths.length := by
      simp only [List.length_cons]
      omega
    rw [hlength, List.map_cons, List.cons_append, dropTop]
    rcases Activation.width_eq_one_or_two v with hv | hv
    · rw [if_pos (hfirst.symm.trans hv), straight_pop hv, ih]
    · rw [if_neg (by omega), straight_pop2 hv, ih]

/-- What a call that returned while saving left on the stack: a result, if there is one, and the
values under the arguments. -/
theorem straight_clearAfterCall {kind : CallKind} {ref : MethodRef} {types : List SlotType}
    {values : List Value} {result : Option Value}
    (hvalues : List.Forall₂ (fun t v => Value.width v = SlotType.width t) types values)
    (hresult : result.map Value.width = ref.descriptor.result.map FieldType.width) :
    straight callees (clearAfterCall (.invoke kind ref) types)
        (a.moved (result.toList ++ (values.take (values.length -
          (ref.descriptor.parameters.length + if kind = .static then 0 else 1))).reverse ++ s) n) m =
      .ok (a.moved s (n + (clearAfterCall (.invoke kind ref) types).length)) m := by
  have hclear : clearAfterCall (.invoke kind ref) types =
      (ref.descriptor.result.toList.map FieldType.width ++ (types.take (types.length -
        (ref.descriptor.parameters.length + if kind = .static then 0 else 1))).reverse.map
          SlotType.width).map dropTop := by
    rw [List.map_append, List.map_map, List.map_map]
    rfl
  rw [hclear, straight_pops, List.length_map]
  refine List.rel_append ?_ ?_
  · cases hdeclared : ref.descriptor.result with
    | none =>
      rw [hdeclared, Option.map_none, Option.map_eq_none_iff] at hresult
      rw [hresult]
      exact .nil
    | some t =>
      rw [hdeclared, Option.map_some] at hresult
      obtain ⟨v, rfl, hv⟩ := Option.map_eq_some_iff.mp hresult
      exact .cons hv .nil
  · rw [hvalues.length_eq]
    exact List.forall₂_map_left_iff.mpr
      (List.forall₂_reverse_iff.mpr (List.forall₂_take _ hvalues))

end Body

end Resumption
