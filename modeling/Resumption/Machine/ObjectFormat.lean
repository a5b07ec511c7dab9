import Resumption.Machine.Basic
import Resumption.Snapshot.Format

/-!
# Heap objects as bytes

Each value starts with a tag.

```text
0   null                    1   reference back (4): index of an object
2   string                  3   instance: class name, number of fields (2), names and values
4   array: descriptor, number of elements (4), elements
5   the continuation        6   the print stream
7   int (4)      8   long (8)      9   float (4)      10   double (8)
```

An object gets an index when it is first written, and so it does when it is read; after that only
the index is written. So objects that are shared stay shared, and cycles end. Strings are interned
when they are read.
-/

namespace Resumption.ObjectFormat

/-! ## Writing -/

/-- The objects written so far, with their indexes. -/
abbrev Written := List (Ref × Nat)

/-- A string, with its fault as that of a snapshot. -/
def writeString (s : String) : Except SnapshotError (List UInt8) :=
  match Bytes.ofString s with
  | .ok bytes => .ok bytes
  | .error e => .error (.ofFormat e)

/-- A value, given how references are written. -/
def writeWith (reference : Ref → Writing Written (List UInt8)) :
    Value → Writing Written (List UInt8)
  | .null | .top => return [0]
  | .int n => return 7 :: Bytes.ofInt32 n
  | .long n => return 8 :: Bytes.ofInt64 n
  | .float bits => return 9 :: Bytes.ofNat 4 bits.toNat
  | .double bits => return 10 :: Bytes.ofNat 8 bits.toNat
  | .ref r => reference r

/-- The contents of an object, given how values are written. -/
def writeObject (value : Value → Writing Written (List UInt8)) :
    HeapObject → Writing Written (List UInt8)
  | .string s => return 2 :: (← writeString s)
  | .instance owner fields => do
    let name ← writeString owner.text
    if 0x10000 ≤ fields.length then throw (.object (.tooManyFields owner))
    let written ← Snapshot.writeEach (fun field => do
      return (← writeString field.1.text) ++ (← value field.2)) fields
    return 3 :: name ++ Bytes.ofNat 2 fields.length ++ written
  | .array type values => do
    let descriptor ← writeString type.render
    if 0x100000000 ≤ values.size then throw (.object .arrayTooLong)
    let written ← Snapshot.writeEach value values.toList
    return 4 :: descriptor ++ Bytes.ofNat 4 values.size ++ written
  | .printStream => return [6]
  | o => throw (.object (.notWritable o.type))

/-- An object, or its index if it was written before. Objects inside of one another are at most as
many levels deep as there are objects on the heap. -/
def writeReference (heap : Array HeapObject) (handle : Ref) :
    (levels : Nat) → Ref → Writing Written (List UInt8)
  | 0, r => throw (.object (.notOnHeap r))
  | levels + 1, r => do
    if r = handle then return [5]
    let written ← get
    match written.lookup r with
    | some index => return 1 :: Bytes.ofNat 4 index
    | none =>
      set ((r, written.length) :: written)
      match heap[r.index]? with
      | none => throw (.object (.notOnHeap r))
      | some o => writeObject (writeWith (writeReference heap handle levels)) o

/-- Writes the values of a machine; `handle` is the continuation of the coroutine. -/
def writer (m : Machine) (handle : Ref) : ObjectWriter Value Written where
  write := writeWith (writeReference m.heap handle (m.heap.size + 1))
  null := return [0]

/-! ## Reading -/

/-- The machine that objects are read into, and the objects read so far. -/
structure Objects where
  /-- where the objects are made -/
  machine : Machine
  /-- the objects that were read so far, in order -/
  read : Array Ref
deriving Repr, Inhabited

/-- Gives the next index to an object. -/
def remember (r : Ref) : Reading Objects Unit :=
  modify fun s => { s with objects := { s.objects with read := s.objects.read.push r } }

/-- Puts an object on the heap and gives it the next index. -/
def place (o : HeapObject) : Reading Objects Ref := do
  let r ← modifyGet fun s =>
    let (r, machine) := s.objects.machine.alloc o
    (r, { s with objects := { s.objects with machine } })
  remember r
  return r

/-- Replaces an object. -/
def fill (r : Ref) (o : HeapObject) : Reading Objects Unit :=
  modify fun s =>
    let machine := s.objects.machine
    let machine := { machine with heap := machine.heap.setIfInBounds r.index o }
    { s with objects := { s.objects with machine } }

/-- Reads a text. A text that the machine has already is not made again. -/
def readString : Reading Objects Value := do
  let s ← Snapshot.plain Bytes.string
  let r ← modifyGet fun state =>
    let (r, machine) := state.objects.machine.intern s
    (r, { state with objects := { state.objects with machine } })
  remember r
  return .ref r

/-- A name, checked. -/
def readName {α : Type} (check : String → Except NameError α) : Reading Objects α := do
  match check (← Snapshot.plain Bytes.string) with
  | .ok name => return name
  | .error e => throw (.object (.badName e))

/-- An instance, given how values are read. It has its index before its fields are read, which may
refer to it. -/
def readInstance (value : Reading Objects Value) : Reading Objects Value := do
  let owner ← readName ClassName.ofString
  let r ← place (.instance owner [])
  let count ← Snapshot.plain (Bytes.nat 2)
  let fields ← Bytes.items count do
    let name ← readName MemberName.ofString
    return (name, ← value)
  fill r (.instance owner (fields.foldl (fun fields (name, v) => fields.set name v) []))
  return .ref r

/-- An array, given how values are read. -/
def readArray (value : Reading Objects Value) : Reading Objects Value := do
  match RefType.parse (← Snapshot.plain Bytes.string) with
  | .error e => throw (.ofDescriptor e)
  | .ok type =>
    let r ← place (.array type #[])
    let count ← Snapshot.plain (Bytes.nat 4)
    let values ← Bytes.items count value
    fill r (.array type values.toArray)
    return .ref r

/-- The object with an index. -/
def readBack : Reading Objects Value := do
  let index ← Snapshot.plain (Bytes.nat 4)
  match (← get).objects.read[index]? with
  | some r => return .ref r
  | none => throw (.object (.unknownReference index))

/-- A value. Each level takes a tag, so there are at most as many levels as bytes. -/
def readValue (handle : Ref) : (levels : Nat) → Reading Objects Value
  | 0 => throw .truncated
  | levels + 1 => do
    match ← Snapshot.plain (Bytes.nat 1) with
    | 0 => return .null
    | 1 => readBack
    | 2 => readString
    | 3 => readInstance (readValue handle levels)
    | 4 => readArray (readValue handle levels)
    | 5 => return .ref handle
    | 6 =>
      remember Machine.printStream
      return .ref Machine.printStream
    | 7 => return .int (← Snapshot.plain Bytes.int32)
    | 8 => return .long (← Snapshot.plain Bytes.int64)
    | 9 => return .float (UInt32.ofNat (← Snapshot.plain (Bytes.nat 4)))
    | 10 => return .double (UInt64.ofNat (← Snapshot.plain (Bytes.nat 8)))
    | tag => throw (.object (.unknownTag tag))

/-- Reads values from at most `size` bytes; `handle` is the continuation of the coroutine. -/
def reader (handle : Ref) (size : Nat) : ObjectReader Value Objects where
  read := readValue handle (size + 1)
  handle := .ref handle

end Resumption.ObjectFormat

namespace Resumption

open ObjectFormat

/-- The bytes of a snapshot of objects on a machine. -/
def Machine.writeSnapshot (m : Machine) (handle : Ref) (s : Snapshot Value) :
    Except SnapshotError (List UInt8) := do
  return (← Snapshot.write (writer m handle) s []).1

/-- Reads a snapshot onto a machine: the snapshot, the machine after that, and the bytes left. -/
def Machine.readSnapshot (m : Machine) (handle : Ref) (bytes : List UInt8) :
    Except SnapshotError (Snapshot Value × Machine × List UInt8) := do
  let start : ReadState Objects := { objects := { machine := m, read := #[] }, bytes }
  let (s, final) ← Snapshot.read (reader handle bytes.length) start
  return (s, final.objects.machine, final.bytes)

end Resumption
