import Resumption.Proofs.Machine.Straight

/-!
# Cells

A local that holds a value is a **cell**: the slot, and the value with its one or two words. A store
can ruin what is next to it, so a cell is safe only from stores that stay **apart** from it:

* **`valueAt_store_of_apart`** is the step: a store apart from a cell leaves it alone.
* **`storeAll`** stores one value after the other; **`valueAt_storeAll_of_apart`** and
  **`valueAt_storeAll_of_mem`** say what is there afterwards.
-/

namespace Resumption

/-- Consecutive slots: the first one, and how many there are. -/
structure Span where
  /-- the first word -/
  slot : Nat
  /-- how many words there are -/
  width : Nat
deriving DecidableEq, Repr

namespace Span

/-- No slot is in both. -/
def Apart (s t : Span) : Prop := s.slot + s.width ≤ t.slot ∨ t.slot + t.width ≤ s.slot

theorem Apart.symm {s t : Span} (h : s.Apart t) : t.Apart s := Or.symm h

end Span

/-- A slot with the value that it holds or is about to hold. -/
abbrev Cell := Nat × Value

/-- The slots that a cell takes. -/
def Cell.span (c : Cell) : Span := ⟨c.1, c.2.width⟩

namespace Activation

/-- The step: a store that stays apart from a cell leaves it alone. -/
theorem valueAt_store_of_apart {a : Activation} {slot : Nat} {c : Cell}
    (h : Span.Apart ⟨slot, (a.valueAt slot).width⟩ c.span) :
    (a.store c.1 c.2).valueAt slot = a.valueAt slot := by
  simp only [Span.Apart, Cell.span] at h
  have hwidth := width_eq_one_or_two (a.valueAt slot)
  have hwidth' := width_eq_one_or_two c.2
  refine valueAt_store_of_ne (by omega) (fun hwide => by omega) fun hbelow => ?_
  -- a wide value just below would reach into the slot that is stored into
  omega

/-- Stores one value after the other. -/
def storeAll (a : Activation) (cells : List Cell) : Activation :=
  cells.foldl (fun a c => a.store c.1 c.2) a

variable (a : Activation)

@[simp] theorem storeAll_nil : a.storeAll [] = a := rfl

@[simp] theorem storeAll_cons (c : Cell) (cells : List Cell) :
    a.storeAll (c :: cells) = (a.store c.1 c.2).storeAll cells := rfl

theorem storeAll_append (cells more : List Cell) :
    a.storeAll (cells ++ more) = (a.storeAll cells).storeAll more := List.foldl_append

@[simp] theorem storeAll_index (cells : List Cell) : (a.storeAll cells).index = a.index := by
  induction cells generalizing a with
  | nil => rfl
  | cons c cells ih => rw [storeAll_cons, ih, store_index]

@[simp] theorem storeAll_stack (cells : List Cell) : (a.storeAll cells).stack = a.stack := by
  induction cells generalizing a with
  | nil => rfl
  | cons c cells ih => rw [storeAll_cons, ih, store_stack]

@[simp] theorem storeAll_moved (s : List Value) (n : Nat) (cells : List Cell) :
    (a.moved s n).storeAll cells = (a.storeAll cells).moved s n := by
  induction cells generalizing a with
  | nil => rfl
  | cons c cells ih => rw [storeAll_cons, store_moved, ih, storeAll_cons]

variable {a}

/-- A cell apart from everything that is stored stays. -/
theorem valueAt_storeAll_of_apart {slot : Nat} {v : Value} (hv : a.valueAt slot = v)
    {cells : List Cell} (h : ∀ c ∈ cells, Span.Apart ⟨slot, v.width⟩ c.span) :
    (a.storeAll cells).valueAt slot = v := by
  induction cells generalizing a with
  | nil => exact hv
  | cons c cells ih =>
    have hfirst : (a.store c.1 c.2).valueAt slot = v := by
      rw [valueAt_store_of_apart (by rw [hv]; exact h c (List.mem_cons_self ..)), hv]
    exact ih hfirst fun d hd => h d (List.mem_cons_of_mem _ hd)

/-- Cells that stay apart from each other all hold their values afterwards. -/
theorem valueAt_storeAll_of_mem {cells : List Cell}
    (h : cells.Pairwise fun c d => c.span.Apart d.span) {c : Cell} (hc : c ∈ cells) :
    (a.storeAll cells).valueAt c.1 = c.2 := by
  induction cells generalizing a with
  | nil => cases hc
  | cons d cells ih =>
    obtain ⟨hfirst, hrest⟩ := List.pairwise_cons.mp h
    rw [storeAll_cons]
    rcases List.mem_cons.mp hc with rfl | hc
    · exact valueAt_storeAll_of_apart (valueAt_store_self a _ _) hfirst
    · exact ih hrest hc

end Activation

end Resumption
