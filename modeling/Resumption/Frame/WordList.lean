import Resumption.Frame.SlotType

/-!
# Sequences measured in words

Items of different widths, one after the other. An item's **offset** is the number of words before
it, its **index** the number of items before it. Items are added and removed at the back, and an
item may be replaced by one of the same width, so that offsets never change. A **walk** takes the items
with their places, at either end.

Widths and offsets are machine words of 64 bits (`machineWord`). They are counted up as items are
added, not computed from the items, and the count starts again at 0 behind the last machine word.
-/

namespace Resumption

/-- Items that take a number of words. -/
class HasWidth (α : Type) where
  /-- how many words an item takes -/
  width : α → Nat

instance : HasWidth SlotType := ⟨SlotType.width⟩

/-- What a machine word of 64 bits holds of a number. -/
def machineWord (n : Nat) : Nat := n % 0x10000000000000000

/-- The width of an item as a machine word. -/
def HasWidth.words {α : Type} [HasWidth α] (item : α) : Nat := machineWord (HasWidth.width item)

/-- Items with their offsets, and the offset of the next item. -/
structure WordList (α : Type) where
  /-- the items in order, each with the offset that it was given -/
  entries : Array (Nat × α)
  /-- the offset that the next item will be given -/
  words : Nat
deriving Repr, Inhabited

/-- An item with its place. -/
structure Placed (α : Type) where
  /-- the words before it -/
  offset : Nat
  /-- the items before it -/
  index : Nat
  /-- the item itself -/
  item : α
deriving DecidableEq, Repr

namespace WordList

variable {α : Type}

/-- No items. -/
def empty : WordList α := ⟨#[], 0⟩

/-- How many items there are. -/
def size (v : WordList α) : Nat := v.entries.size

/-- Are there no items? -/
def isEmpty (v : WordList α) : Bool := v.entries.isEmpty

/-- The items in order. -/
def toList (v : WordList α) : List α := v.entries.toList.map (·.2)

/-- The items with their places, in order. -/
def placed (v : WordList α) : List (Placed α) :=
  v.entries.toList.zipIdx.map fun ((offset, item), index) => ⟨offset, index, item⟩

/-- Adds an item at the back; its offset is the count of words before, which goes up by its width. -/
def push [HasWidth α] (v : WordList α) (item : α) : WordList α :=
  ⟨v.entries.push (v.words, item), machineWord (v.words + HasWidth.words item)⟩

/-- Adds items at the back. -/
def append [HasWidth α] (v : WordList α) (items : List α) : WordList α := items.foldl push v

/-- The sequence of these items. -/
def ofList [HasWidth α] (items : List α) : WordList α := append empty items

/-- The last item with its place, and the sequence without it. The count of words goes back to the
offset of the item. -/
def pop? (v : WordList α) : Option (Placed α × WordList α) :=
  match v.entries.back? with
  | none => none
  | some (offset, item) =>
    some (⟨offset, v.entries.size - 1, item⟩, ⟨v.entries.pop, offset⟩)

/-- The item with `depth` items behind it. -/
def peek? (v : WordList α) (depth : Nat) : Option α :=
  if depth < v.entries.size then v.entries[v.entries.size - 1 - depth]?.map (·.2) else none

/-- Replaces the item at an index by one of the same width, and gives the item that was there. -/
def replace? [HasWidth α] (v : WordList α) (index : Nat) (item : α) : Option (α × WordList α) :=
  match v.entries[index]? with
  | none => none
  | some (offset, old) =>
    if HasWidth.words old = HasWidth.words item then
      some (old, { v with entries := v.entries.set! index (offset, item) })
    else none

/-- A walk over the items: how many were taken at the front, and what is left of them. -/
structure Walk (α : Type) where
  /-- how many items were taken at the front -/
  taken : Nat
  /-- the items that were taken at neither end, with their offsets -/
  left : List (Nat × α)

/-- The walk over all items. -/
def walk (v : WordList α) : Walk α := ⟨0, v.entries.toList⟩

/-- Takes the first of the items that are left. -/
def Walk.next? (w : Walk α) : Option (Placed α × Walk α) :=
  match w.left with
  | [] => none
  | (offset, item) :: left => some (⟨offset, w.taken, item⟩, ⟨w.taken + 1, left⟩)

/-- Takes the last of the items that are left; its index is found by how many there are. -/
def Walk.nextBack? (w : Walk α) : Option (Placed α × Walk α) :=
  match w.left.getLast? with
  | none => none
  | some (offset, item) =>
    some (⟨offset, w.taken + (w.left.length - 1), item⟩, ⟨w.taken, w.left.dropLast⟩)

/-- Two sequences are the same if they have the same items at the same offsets. -/
def same [DecidableEq α] (v w : WordList α) : Bool := v.entries == w.entries

/-- The items in brackets, each with its offset. -/
def describe (item : α → String) (v : WordList α) : String :=
  describeList (fun (offset, x) => s!"#{offset} = {item x}") v.entries.toList

end WordList

end Resumption
