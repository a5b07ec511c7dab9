import Resumption.Analysis.Error

/-!
# Scratch variables

Generated code needs local variables of its own, above those of the method. A `ScratchTable` leases
them out: a lease names a slot and the kind of value it is for, and a slot that was given back is
leased again for values of the same width. Each lease has a number of its own, its generation.
-/

namespace Resumption

namespace ValueKind

/-- The kind of variable for a value of a type. An unusable slot has no value, and null needs no
variable. -/
def ofSlot? : SlotType → Option ValueKind
  | .integer => some .int
  | .long => some .long
  | .float => some .float
  | .double => some .double
  | .object _ | .uninitializedThis | .uninitialized _ _ => some .object
  | .top | .null => none

/-- The kind of elements of an array of values of this kind. -/
def element : ValueKind → ElementKind
  | .int => .int
  | .long => .long
  | .float => .float
  | .double => .double
  | .object => .object

/-- The type of elements of arrays in which values of this kind are saved. -/
def elementType : ValueKind → FieldType
  | .int => .int
  | .long => .long
  | .float => .float
  | .double => .double
  | .object => .object .object

/-- The type of arrays in which values of this kind are saved. -/
def arrayType (k : ValueKind) : RefType := .array k.elementType

end ValueKind

/-- A leased variable. -/
structure Lease where
  /-- the variable -/
  slot : Nat
  /-- what it holds -/
  kind : ValueKind
  /-- a number that no other lease of the table has -/
  generation : Nat
deriving DecidableEq, Repr, Inhabited

namespace Lease

/-- Pushes what is in the variable. -/
def load (l : Lease) : Instruction := .load l.kind l.slot

/-- Pops a value into the variable. -/
def store (l : Lease) : Instruction := .store l.kind l.slot

end Lease

/-- Variables that can be leased. -/
structure ScratchTable where
  /-- the first slot that was never leased -/
  nextSlot : Nat
  /-- slots of one word that were given back, last first -/
  freeNarrow : List Nat
  /-- slots of two words that were given back, last first -/
  freeWide : List Nat
  /-- the number that was given last -/
  generation : Nat
deriving DecidableEq, Repr, Inhabited

namespace ScratchTable

/-- Variables from a slot on. -/
def ofFirst (slot : Nat) : ScratchTable := ⟨slot, [], [], 0⟩

/-- A lease of a slot, with the next generation. -/
def lease (t : ScratchTable) (slot : Nat) (kind : ValueKind) : Lease × ScratchTable :=
  ({ slot, kind, generation := t.generation + 1 }, { t with generation := t.generation + 1 })

/-- Leases a variable. A slot above all others must leave room below 0x10000. -/
def acquire (t : ScratchTable) (kind : ValueKind) : Except CodeError (Lease × ScratchTable) :=
  let fresh : Except CodeError (Lease × ScratchTable) :=
    if t.nextSlot + kind.width < 0x10000 then
      .ok ({ t with nextSlot := t.nextSlot + kind.width }.lease t.nextSlot kind)
    else .error (.unanalyzable .tooManyVariables)
  if kind.width = 2 then
    match t.freeWide with
    | slot :: rest => .ok ({ t with freeWide := rest }.lease slot kind)
    | [] => fresh
  else
    match t.freeNarrow with
    | slot :: rest => .ok ({ t with freeNarrow := rest }.lease slot kind)
    | [] => fresh

/-- Takes a variable back. -/
def release (t : ScratchTable) (l : Lease) : ScratchTable :=
  if l.kind.width = 2 then { t with freeWide := l.slot :: t.freeWide }
  else { t with freeNarrow := l.slot :: t.freeNarrow }

end ScratchTable

end Resumption
