import Mathlib
import Resumption.Frame.WordList

/-!
# Offsets are sums of widths

A sequence measured in words stores its offsets and its length in words, as machine words. Every change
leaves them as they would be if the items were put in one after the other (`Regular`), so all that is
stored follows from the items: an offset is what a machine word holds of the widths before.

* **`Edit.regular_apply`**: a change keeps that, and makes of the items what `Edit.onItems` says.
* **`Walk.gives_next?`** and **`Walk.gives_nextBack?`**: each end of a walk gives what is left in the
  order of that end, with the places that the items have in the sequence.
* **`offsets_edited`**: what all sequences have in common that come out of changes.
* **`offsets_edited_wraps`**: an offset is not the widths before if these have no machine word.
-/

namespace Resumption.WordList

/-- Wrapping around before adding makes no difference. -/
theorem machineWord_add (a b : Nat) : machineWord (machineWord a + b) = machineWord (a + b) :=
  Nat.mod_add_mod a _ b

/-- Small numbers do not wrap around. -/
theorem machineWord_of_lt {n : Nat} (h : n < 2 ^ 64) : machineWord n = n := Nat.mod_eq_of_lt h

variable {α : Type} [HasWidth α]

/-- How many words the items take. -/
def widths (items : List α) : Nat := (items.map HasWidth.words).sum

/-- The items with their offsets, if so many words are before them. -/
def offsetsFrom (before : Nat) : List α → List (Nat × α)
  | [] => []
  | item :: items => (machineWord before, item) :: offsetsFrom (before + HasWidth.words item) items

/-- The width of an item is added to those of the rest. -/
theorem widths_cons (item : α) (items : List α) :
    widths (item :: items) = HasWidth.words item + widths items := by
  rw [widths, List.map_cons, List.sum_cons, widths]

/-- Widths add up across lists. -/
theorem widths_append (items more : List α) :
    widths (items ++ more) = widths items + widths more := by
  rw [widths, List.map_append, List.sum_append, widths, widths]

/-- An item at the end has the widths of all others in front of it. -/
theorem offsetsFrom_concat (before : Nat) (items : List α) (item : α) :
    offsetsFrom before (items ++ [item]) =
      offsetsFrom before items ++ [(machineWord (before + widths items), item)] := by
  induction items generalizing before with
  | nil => rfl
  | cons first items ih =>
    rw [List.cons_append, offsetsFrom, offsetsFrom, ih, widths_cons, Nat.add_assoc, List.cons_append]

/-- An item has the widths of those before it in front of it. -/
theorem getElem?_offsetsFrom (before : Nat) (items : List α) (index : Nat) :
    (offsetsFrom before items)[index]? =
      items[index]?.map fun item => (machineWord (before + widths (items.take index)), item) := by
  induction items generalizing before index with
  | nil => rfl
  | cons first items ih =>
    cases index with
    | zero => rfl
    | succ index =>
      rw [offsetsFrom, List.getElem?_cons_succ, List.getElem?_cons_succ, ih, List.take_succ_cons,
        widths_cons, Nat.add_assoc]

/-- An item of the same width moves nothing. -/
theorem offsetsFrom_set (before : Nat) {items : List α} {index : Nat} {old item : α}
    (hold : items[index]? = some old) (hwidth : HasWidth.words old = HasWidth.words item) :
    (offsetsFrom before items).set index (machineWord (before + widths (items.take index)), item) =
      offsetsFrom before (items.set index item) := by
  induction items generalizing before index with
  | nil => rfl
  | cons first items ih =>
    cases index with
    | zero =>
      cases hold
      rw [List.set_cons_zero, offsetsFrom, offsetsFrom, List.set_cons_zero, hwidth]
      rfl
    | succ index =>
      rw [List.set_cons_succ, offsetsFrom, offsetsFrom, List.set_cons_succ, List.take_succ_cons,
        widths_cons, ← Nat.add_assoc, ih _ hold]

/-- An item of the same width does not change the sum. -/
theorem widths_set {items : List α} {index : Nat} {old item : α} (hold : items[index]? = some old)
    (hwidth : HasWidth.words old = HasWidth.words item) :
    widths (items.set index item) = widths items := by
  induction items generalizing index with
  | nil => rfl
  | cons first items ih =>
    cases index with
    | zero =>
      cases hold
      rw [List.set_cons_zero, widths_cons, widths_cons, hwidth]
    | succ index => rw [List.set_cons_succ, widths_cons, widths_cons, ih hold]

/-! ## Sequences -/

variable {v w : WordList α}

/-- What is stored is what follows from the items. -/
structure Regular (v : WordList α) : Prop where
  /-- offsets count words from the beginning -/
  entries : v.entries.toList = offsetsFrom 0 v.toList
  /-- so does the length, as a machine word -/
  words : v.words = machineWord (widths v.toList)

/-- The empty list is regular. -/
theorem regular_empty : Regular (empty : WordList α) := ⟨rfl, rfl⟩

@[simp] theorem toList_push (v : WordList α) (item : α) :
    (v.push item).toList = v.toList ++ [item] := by
  simp only [push, toList, Array.toList_push, List.map_append, List.map_singleton]

@[simp] theorem toList_append (v : WordList α) (items : List α) :
    (v.append items).toList = v.toList ++ items := by
  induction items generalizing v with
  | nil => exact (List.append_nil _).symm
  | cons item items ih =>
    have happend : v.append (item :: items) = (v.push item).append items := rfl
    rw [happend, ih, toList_push, List.append_assoc, List.singleton_append]

@[simp] theorem toList_ofList (items : List α) : (ofList items).toList = items := by
  rw [ofList, toList_append]
  rfl

namespace Regular

/-- Adding an item keeps a list regular. -/
theorem push (hv : Regular v) (item : α) : Regular (v.push item) where
  entries := by
    rw [toList_push, offsetsFrom_concat, ← hv.entries, Nat.zero_add, ← hv.words, WordList.push,
      Array.toList_push]
  words := by
    have hcount : (v.push item).words = machineWord (v.words + HasWidth.words item) := rfl
    rw [hcount, hv.words, machineWord_add, toList_push, widths_append]
    rfl

/-- Adding items keeps a list regular. -/
theorem append (hv : Regular v) (items : List α) : Regular (v.append items) := by
  induction items generalizing v with
  | nil => exact hv
  | cons item items ih => exact ih (hv.push item)

/-- **Sequences are the same** if their items are. -/
theorem eq_of_toList (hv : Regular v) (hw : Regular w) (h : v.toList = w.toList) : v = w := by
  obtain ⟨entries, words⟩ := v
  obtain ⟨entries', words'⟩ := w
  have hentries := hv.entries.trans ((congrArg (offsetsFrom 0) h).trans hw.entries.symm)
  have hwords := hv.words.trans ((congrArg (machineWord <| widths ·) h).trans hw.words.symm)
  rw [mk.injEq]
  exact ⟨Array.toList_inj.mp hentries, hwords⟩

end Regular

/-- A list of words that is made of items is regular. -/
theorem regular_ofList (items : List α) : Regular (ofList items) := regular_empty.append items

/-- Its length is the sum of the widths, as a machine word. -/
theorem words_ofList (items : List α) : (ofList items).words = machineWord (widths items) := by
  rw [(regular_ofList items).words, toList_ofList]

/-- A regular list is the one that is made of its items. -/
theorem Regular.eq_ofList (hv : Regular v) : v = ofList v.toList :=
  hv.eq_of_toList (regular_ofList _) (toList_ofList _).symm

/-- **Removing what was added.** -/
theorem pop?_push (v : WordList α) (item : α) :
    (v.push item).pop? = some (⟨v.words, v.size, item⟩, v) := by
  simp only [pop?, push, Array.back?_push, Array.size_push, Nat.add_sub_cancel, Array.pop_push, size]

/-- **Replacing an item**: it is accepted just when it is as wide as the one that is there. -/
theorem Regular.replace?_eq (hv : Regular v) (index : Nat) (item : α) :
    v.replace? index item = (v.toList[index]?.filter fun old =>
      HasWidth.words old = HasWidth.words item).map fun old =>
        (old, ofList (v.toList.set index item)) := by
  have hentry : v.entries[index]? =
      v.toList[index]?.map fun old => (machineWord (widths (v.toList.take index)), old) := by
    rw [← Array.getElem?_toList, hv.entries, getElem?_offsetsFrom, Nat.zero_add]
  simp only [replace?, hentry]
  cases hold : v.toList[index]? with
  | none => rfl
  | some old =>
    simp only [Option.map_some, Option.filter_some, decide_eq_true_eq]
    split
    · rename_i hwidth
      generalize hset :
        v.entries.set! index (machineWord (widths (v.toList.take index)), item) = entries
      have hitems : toList ⟨entries, v.words⟩ = v.toList.set index item := by
        simp only [toList, ← hset, Array.set!_eq_setIfInBounds, Array.toList_setIfInBounds,
          List.map_set]
      have hregular : Regular ⟨entries, v.words⟩ := by
        constructor
        · rw [hitems, ← offsetsFrom_set 0 hold hwidth, ← hv.entries, Nat.zero_add, ← hset,
            Array.set!_eq_setIfInBounds, Array.toList_setIfInBounds]
        · rw [hitems, widths_set hold hwidth, ← hv.words]
      rw [Option.map_some, ← hitems, ← hregular.eq_ofList]
    · rfl

/-! ## Changes -/

/-- A change to a sequence. -/
inductive Edit (α : Type) where
  /-- puts an item at the end -/
  | push (item : α)
  /-- takes the last item away -/
  | pop
  /-- takes all items away -/
  | clear
  /-- puts items at the end -/
  | extend (items : List α)
  /-- the sequence is made anew, of other items -/
  | collect (items : List α)
  /-- puts an item in place of another one -/
  | replace (index : Nat) (item : α)

namespace Edit

/-- What a change makes of a sequence; one that is rejected makes nothing of it. -/
def apply (v : WordList α) : Edit α → WordList α
  | push item => v.push item
  | pop => (v.pop?.map (·.2)).getD v
  | clear => .empty
  | extend items => v.append items
  | collect items => .ofList items
  | replace index item => ((v.replace? index item).map (·.2)).getD v

/-- What a change makes of the items. -/
def onItems (items : List α) : Edit α → List α
  | push item => items ++ [item]
  | pop => items.dropLast
  | clear => []
  | extend more => items ++ more
  | collect others => others
  | replace index item =>
    if items[index]?.any fun old => HasWidth.words old = HasWidth.words item then
      items.set index item
    else items

/-- **One change.** -/
theorem regular_apply (hv : Regular v) (e : Edit α) :
    Regular (e.apply v) ∧ (e.apply v).toList = e.onItems v.toList := by
  cases e with
  | push item => exact ⟨hv.push item, toList_push v item⟩
  | pop =>
    rcases List.eq_nil_or_concat v.toList with hnil | ⟨items, item, hconcat⟩
    · have hempty : v = empty := hv.eq_of_toList regular_empty hnil
      subst hempty
      exact ⟨regular_empty, rfl⟩
    · have hpush : v = (ofList items).push item := by
        refine hv.eq_of_toList ((regular_ofList items).push item) ?_
        rw [toList_push, toList_ofList, hconcat, List.concat_eq_append]
      have hpop : pop.apply v = ofList items := by
        rw [apply, hpush, pop?_push]
        rfl
      rw [hpop, toList_ofList, onItems, hconcat, List.concat_eq_append, List.dropLast_concat]
      exact ⟨regular_ofList items, rfl⟩
  | clear => exact ⟨regular_empty, rfl⟩
  | extend items => exact ⟨hv.append items, toList_append v items⟩
  | collect items => exact ⟨regular_ofList items, toList_ofList items⟩
  | replace index item =>
    rw [apply, onItems, hv.replace?_eq]
    cases v.toList[index]? with
    | none => exact ⟨hv, rfl⟩
    | some old =>
      simp only [Option.filter_some, Option.any_some, decide_eq_true_eq]
      split
      · exact ⟨regular_ofList _, toList_ofList _⟩
      · exact ⟨hv, rfl⟩

/-- **All changes**, one after the other. -/
theorem regular_foldl (edits : List (Edit α)) (hv : Regular v) :
    Regular (edits.foldl apply v) ∧ (edits.foldl apply v).toList = edits.foldl onItems v.toList := by
  induction edits generalizing v with
  | nil => exact ⟨hv, rfl⟩
  | cons e edits ih =>
    obtain ⟨hregular, hitems⟩ := regular_apply hv e
    rw [List.foldl_cons, List.foldl_cons, ← hitems]
    exact ih hregular

/-- Removing items one after the other. -/
theorem foldl_pop (items removed : List α) :
    (List.replicate removed.length Edit.pop).foldl onItems (items ++ removed) = items := by
  induction removed using List.reverseRecOn generalizing items with
  | nil => exact List.append_nil items
  | append_singleton removed item ih =>
    rw [List.length_append, List.length_singleton, List.replicate_succ, List.foldl_cons, onItems,
      ← List.append_assoc, List.dropLast_concat, ih]

/-- Adding items one after the other. -/
theorem foldl_push (items added : List α) :
    (added.map Edit.push).foldl onItems items = items ++ added := by
  induction added generalizing items with
  | nil => exact (List.append_nil items).symm
  | cons item added ih =>
    rw [List.map_cons, List.foldl_cons, onItems, ih, List.append_assoc, List.singleton_append]

end Edit

/-! ## Walks -/

section Walks

omit [HasWidth α]

namespace Walk

/-- What is left of a walk, with its places. -/
def placed (w : Walk α) : List (Placed α) :=
  (w.left.zipIdx w.taken).map fun ((offset, item), index) => ⟨offset, index, item⟩

/-- The items that a walk gives, first things first, until nothing is left. -/
inductive Gives (take : Walk α → Option (Placed α × Walk α)) : Walk α → List (Placed α) → Prop
  /-- nothing, and so it ends -/
  | done {w : Walk α} (h : take w = none) : Gives take w []
  /-- one item, and then the rest -/
  | more {w w' : Walk α} {p : Placed α} {ps : List (Placed α)} (h : take w = some (p, w'))
      (hrest : Gives take w' ps) : Gives take w (p :: ps)

/-- **Forward.** -/
theorem gives_next? (w : Walk α) : Gives next? w w.placed := by
  obtain ⟨taken, left⟩ := w
  induction left generalizing taken with
  | nil => exact .done rfl
  | cons entry left ih => exact .more rfl (ih (taken + 1))

/-- **Backward.** -/
theorem gives_nextBack? (w : Walk α) : Gives nextBack? w w.placed.reverse := by
  obtain ⟨taken, left⟩ := w
  induction left using List.reverseRecOn with
  | nil => exact .done rfl
  | append_singleton left entry ih =>
    have hback : nextBack? ⟨taken, left ++ [entry]⟩ =
        some (⟨entry.1, taken + left.length, entry.2⟩, ⟨taken, left⟩) := by
      simp only [nextBack?, List.getLast?_concat, List.dropLast_concat, List.length_append,
        List.length_singleton, Nat.add_sub_cancel]
    have hplaced : placed ⟨taken, left ++ [entry]⟩ =
        placed ⟨taken, left⟩ ++ [⟨entry.1, taken + left.length, entry.2⟩] := by
      simp only [placed, List.zipIdx_append, List.zipIdx_singleton, List.map_append,
        List.map_singleton]
    rw [hplaced, List.reverse_append]
    exact .more hback ih

end Walk

/-- Lists are the same if their entries are. -/
theorem same_iff [DecidableEq α] {v w : WordList α} : v.same w = true ↔ v.entries = w.entries :=
  beq_iff_eq

end Walks

/-- **Places** are what follows from the items. -/
theorem Regular.getElem?_placed {v : WordList α} (hv : Regular v) (index : Nat) :
    v.placed[index]? =
      v.toList[index]?.map fun item =>
        ⟨machineWord (widths (v.toList.take index)), index, item⟩ := by
  rw [WordList.placed, hv.entries, List.getElem?_map, List.getElem?_zipIdx, getElem?_offsetsFrom]
  cases v.toList[index]? with
  | none => rfl
  | some item => simp only [Option.map_some, Nat.zero_add]

/-- **Sequences that come out of changes** hold the items that the changes make of none. The offset of
an item is the width of all before it, and the length in words that of all items, as long as a machine
word holds it. An item that was added can be removed again, with its place. An item is replaced by
another one just if both are equally wide, and else nothing changes. A walk gives the same items with
their places from either end, in opposite orders. And two of them are the same just if their items
are. -/
theorem offsets_edited [DecidableEq α] (edits : List (Edit α)) :
    let v : WordList α := edits.foldl Edit.apply .empty
    v.toList = edits.foldl Edit.onItems [] ∧
    (∀ index : Nat, ∃ offset,
      v.placed[index]? = v.toList[index]?.map (fun item => ⟨offset, index, item⟩) ∧
      (widths (v.toList.take index) < 2 ^ 64 → offset = widths (v.toList.take index))) ∧
    (widths v.toList < 2 ^ 64 → v.words = widths v.toList) ∧
    (∀ item, (v.push item).pop? = some (⟨v.words, v.size, item⟩, v)) ∧
    (∀ index item, match v.replace? index item with
      | some (old, w) => v.toList[index]? = some old ∧ HasWidth.words old = HasWidth.words item ∧
        w.toList = v.toList.set index item
      | none => (∀ old, v.toList[index]? = some old → HasWidth.words old ≠ HasWidth.words item) ∧
        (Edit.replace index item).apply v = v) ∧
    Walk.Gives Walk.next? v.walk v.placed ∧ Walk.Gives Walk.nextBack? v.walk v.placed.reverse ∧
    ∀ others : List (Edit α), v.same (others.foldl Edit.apply .empty) = true ↔
      v.toList = (others.foldl Edit.apply .empty).toList := by
  intro v
  obtain ⟨hv, hitems⟩ : Regular v ∧ v.toList = edits.foldl Edit.onItems [] :=
    Edit.regular_foldl edits regular_empty
  refine ⟨hitems, fun index => ⟨_, hv.getElem?_placed index, machineWord_of_lt⟩,
    fun hfits => hv.words.trans (machineWord_of_lt hfits), pop?_push v, fun index item => ?_,
    Walk.gives_next? v.walk, Walk.gives_nextBack? v.walk, fun others => ?_⟩
  · rw [Edit.apply, hv.replace?_eq]
    cases hold : v.toList[index]? with
    | none => exact ⟨nofun, rfl⟩
    | some old =>
      rw [Option.filter_some]
      by_cases hwidth : HasWidth.words old = HasWidth.words item
      · rw [if_pos (decide_eq_true hwidth)]
        exact ⟨rfl, hwidth, toList_ofList _⟩
      · rw [if_neg (by simpa using hwidth)]
        refine ⟨fun old' hold' => ?_, rfl⟩
        cases hold'
        exact hwidth
  · obtain ⟨hw, -⟩ := Edit.regular_foldl others (regular_empty (α := α))
    rw [same_iff]
    refine ⟨fun hentries => congrArg (·.toList.map (·.2)) hentries, fun hsame => ?_⟩
    rw [hv.eq_of_toList hw hsame]

/-- An operand stack of an int and a long, after a float was pushed and popped. -/
theorem offsets_edited_operands :
    widths [SlotType.integer, .long] < 2 ^ 64 ∧
    ([.push .integer, .push .long, .push .float, .pop].foldl Edit.apply
      (.empty : WordList SlotType)).words = 3 := by
  obtain ⟨hitems, -, hwords, -⟩ :=
    offsets_edited [.push SlotType.integer, .push .long, .push .float, .pop]
  rw [hitems] at hwords
  exact ⟨by decide, hwords (by decide)⟩

/-- A piece of any width. -/
structure Stretch where
  /-- the words it takes -/
  width : Nat
deriving DecidableEq

instance : HasWidth Stretch := ⟨Stretch.width⟩

/-- **The count starts again.** Three items of `2 ^ 64` words together, each of them of less: the sum
of their widths is the length of the sequence for no machine word, and the next item is given the
offset 0. -/
theorem offsets_edited_wraps :
    let items : List Stretch := [⟨2 ^ 63 - 1⟩, ⟨2 ^ 63 - 1⟩, ⟨2⟩]
    let v : WordList Stretch := (items.map Edit.push).foldl Edit.apply .empty
    v.toList = items ∧ widths items = 2 ^ 64 ∧ v.words = 0 ∧
    ((v.push ⟨1⟩).placed[3]?.map Placed.offset) = some 0 := by
  decide

end Resumption.WordList
