import Resumption.Snapshot.Error

/-!
# Snapshots as bytes

Everything is big endian.

```text
snapshot:        magic number (4), format version (2), payload,
                 number of frames (4), frames, innermost first
frame:           number of representations (2), representations
representation:  class name, method id (4), version (4), point (4),
                 monitors, locals, stack
monitors:        number (4), objects
data:            ints, longs, floats, doubles, objects, handles,
                 each a number (4) and the items
```

How objects are written is left open: an `ObjectWriter` and an `ObjectReader` may each carry a state
through a snapshot, so that an object that occurs twice need not be written twice. The continuation
is written as null, and reading puts the continuation of the reader at the indexes in `handles`.
-/

namespace Resumption

/-- Makes bytes, carrying the state of an object writer along. -/
abbrev Writing (σ : Type) := StateT σ (Except SnapshotError)

/-- Writes objects. -/
structure ObjectWriter (ω σ : Type) where
  /-- writes an object -/
  write : ω → Writing σ (List UInt8)
  /-- writes what reads back as null -/
  null : Writing σ (List UInt8)

/-- What a reader holds: the state of the object reader, and the bytes that are left. -/
structure ReadState (ρ : Type) where
  /-- what is kept from one object to the next -/
  objects : ρ
  /-- what is left to be read -/
  bytes : List UInt8
deriving Repr, Inhabited

/-- Takes bytes from the front, carrying the state of an object reader along. -/
abbrev Reading (ρ : Type) := StateT (ReadState ρ) (Except SnapshotError)

/-- Reads objects. -/
structure ObjectReader (ω ρ : Type) where
  /-- reads an object -/
  read : Reading ρ ω
  /-- the continuation of the reader -/
  handle : ω

namespace Snapshot

/-- The first four bytes of a snapshot, `CORO` in ASCII. -/
def magic : Nat := 0x434F524F

/-- The version of the format. -/
def formatVersion : Nat := 1

variable {ω σ ρ : Type}

/-! ## Writing -/

/-- A count in four bytes. -/
def writeCount (n : Nat) : Except SnapshotError (List UInt8) :=
  if n < 0x100000000 then .ok (Bytes.ofNat 4 n) else .error (.object .sequenceTooLong)

/-- A count and the items. -/
def writeItems {α : Type} (item : α → List UInt8) (xs : List α) :
    Except SnapshotError (List UInt8) := do
  return (← writeCount xs.length) ++ xs.flatMap item

/-- One object after the other. -/
def writeEach {α : Type} (item : α → Writing σ (List UInt8)) (xs : List α) :
    Writing σ (List UInt8) := do
  return (← xs.mapM item).flatten

/-- The object at an index of the data; null stands in for the continuation. -/
def writeSlot (w : ObjectWriter ω σ) (handles : List Nat) (slot : ω × Nat) :
    Writing σ (List UInt8) :=
  if handles.contains slot.2 then w.null else w.write slot.1

/-- Writes saved values, kind by kind, and then the places of the handle. -/
def writeData (w : ObjectWriter ω σ) (d : SavedData ω) : Writing σ (List UInt8) := do
  let ints ← writeItems Bytes.ofInt32 d.ints
  let longs ← writeItems Bytes.ofInt64 d.longs
  let floats ← writeItems (fun bits => Bytes.ofNat 4 bits.toNat) d.floats
  let doubles ← writeItems (fun bits => Bytes.ofNat 8 bits.toNat) d.doubles
  let count ← writeCount d.objects.length
  let objects ← writeEach (writeSlot w d.handles) d.objects.zipIdx
  let handles ← writeItems (Bytes.ofNat 4) d.handles
  return ints ++ longs ++ floats ++ doubles ++ count ++ objects ++ handles

/-- Writes which method at which point a frame belongs to. -/
def writeKey (k : FrameKey) : Except SnapshotError (List UInt8) :=
  match Bytes.ofString k.owner with
  | .error e => .error (.ofFormat e)
  | .ok owner =>
    .ok (owner ++ Bytes.ofInt32 k.id ++ Bytes.ofInt32 k.version ++ Bytes.ofInt32 k.point)

/-- Writes one representation of a frame. -/
def writeFrame (w : ObjectWriter ω σ) (f : SavedFrame ω) : Writing σ (List UInt8) := do
  let key ← writeKey f.key
  let count ← writeCount f.monitors.length
  let monitors ← writeEach w.write f.monitors
  let locals ← writeData w f.locals
  let stack ← writeData w f.stack
  return key ++ count ++ monitors ++ locals ++ stack

/-- Writes a frame with all its representations. -/
def writeVersioned (w : ObjectWriter ω σ) (v : VersionedFrame ω) : Writing σ (List UInt8) := do
  let count := v.representations.length
  if 0x10000 ≤ count then throw (.object .tooManyRepresentations)
  return Bytes.ofNat 2 count ++ (← writeEach (writeFrame w) v.representations)

/-- The bytes of a snapshot. -/
def write (w : ObjectWriter ω σ) (s : Snapshot ω) : Writing σ (List UInt8) := do
  let payload ← w.write s.payload
  let count ← writeCount s.frames.length
  let frames ← writeEach (writeVersioned w) s.frames.reverse
  return Bytes.ofNat 4 magic ++ Bytes.ofNat 2 formatVersion ++ payload ++ count ++ frames

/-! ## Reading -/

/-- Reads something that holds no objects. -/
def plain {α : Type} (reader : Bytes.Reader α) : Reading ρ α := fun s =>
  match reader s.bytes with
  | .ok (a, bytes) => .ok (a, { s with bytes })
  | .error e => .error (.ofFormat e)

/-- A count and the items. -/
@[specialize]
def readItems {α : Type} (item : Reading ρ α) : Reading ρ (List α) := do
  let count ← plain (Bytes.nat 4)
  Bytes.items count item

/-- Puts the continuation at the given indexes. -/
def putHandles (handle : ω) (objects : List ω) (handles : List Nat) :
    Except SnapshotError (List ω) :=
  match handles.find? (objects.length ≤ ·) with
  | some index => .error (.object (.handleOutOfRange index objects.length))
  | none => .ok (handles.foldl (fun objects index => objects.set index handle) objects)

/-- Reads saved values, and puts the handle at its places. -/
def readData (r : ObjectReader ω ρ) : Reading ρ (SavedData ω) := do
  let ints ← readItems (plain Bytes.int32)
  let longs ← readItems (plain Bytes.int64)
  let floats ← readItems (UInt32.ofNat <$> plain (Bytes.nat 4))
  let doubles ← readItems (UInt64.ofNat <$> plain (Bytes.nat 8))
  let objects ← readItems r.read
  let handles ← readItems (plain (Bytes.nat 4))
  let objects ← putHandles r.handle objects handles
  return { ints, longs, floats, doubles, objects, handles }

/-- Reads one representation of a frame. -/
def readFrame (r : ObjectReader ω ρ) : Reading ρ (SavedFrame ω) := do
  let owner ← plain Bytes.string
  let id ← plain Bytes.int32
  let version ← plain Bytes.int32
  let point ← plain Bytes.int32
  let monitors ← readItems r.read
  let locals ← readData r
  let stack ← readData r
  return { key := { owner, id, version, point }, monitors, locals, stack }

/-- Reads a frame with all its representations. -/
def readVersioned (r : ObjectReader ω ρ) : Reading ρ (VersionedFrame ω) := do
  let count ← plain (Bytes.nat 2)
  return ⟨← Bytes.items count (readFrame r)⟩

/-- Reads a snapshot and leaves what comes after it. -/
def read (r : ObjectReader ω ρ) : Reading ρ (Snapshot ω) := do
  let found ← plain (Bytes.nat 4)
  if found ≠ magic then throw (.badMagic found)
  let version ← plain (Bytes.nat 2)
  if version ≠ formatVersion then throw (.unsupportedVersion version)
  let payload ← r.read
  let frames ← readItems (readVersioned r)
  return { payload, frames := frames.reverse }

end Snapshot

end Resumption
