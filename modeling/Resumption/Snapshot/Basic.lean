import Resumption.Text.Hexadecimal

/-!
# Snapshots

A suspended coroutine at rest: the coroutine object, the payload, and for each method on its call
stack the values it held. Code changes between writing and reading, so a frame is kept as a chain of
equivalent frames for different versions of the code. Objects are left open (`ω`).
-/

namespace Resumption

/-- The code that a saved frame belongs to. -/
structure FrameKey where
  /-- name of the class -/
  owner : String
  /-- which method of its class it is -/
  id : Int32
  /-- the version of its body -/
  version : Int32
  /-- where it has stopped -/
  point : Int32
deriving DecidableEq, Repr, Inhabited

/-- Class, method id and version in hexadecimal, and point. -/
def FrameKey.render (k : FrameKey) : String :=
  let id := Text.Hexadecimal.padded 8 k.id.toUInt32.toNat
  let version := Text.Hexadecimal.padded 8 k.version.toUInt32.toNat
  s!"{k.owner}#{id}/{version}@{k.point.toInt}"

/-- Saved locals or stack values, by kind. Floating point values are bits. -/
structure SavedData (ω : Type) where
  /-- numbers of kind int -/
  ints : List Int32
  /-- numbers of kind long -/
  longs : List Int64
  /-- patterns of 32 bits -/
  floats : List UInt32
  /-- patterns of 64 bits -/
  doubles : List UInt64
  /-- references -/
  objects : List ω
  /-- which objects are the continuation itself; it is never written, and reading puts the
  continuation of the reader in its place -/
  handles : List Nat
deriving DecidableEq, Repr, Inhabited

namespace SavedData

variable {ω : Type}

/-- No values. -/
def empty : SavedData ω := ⟨[], [], [], [], [], []⟩

/-- Whether there are no values. Handles stand at places of objects, so they need not be looked at.
-/
def isEmpty (d : SavedData ω) : Bool :=
  d.ints.isEmpty && d.longs.isEmpty && d.floats.isEmpty && d.doubles.isEmpty && d.objects.isEmpty

end SavedData

/-- The saved state of one activation. -/
structure SavedFrame (ω : Type) where
  /-- what it belongs to -/
  key : FrameKey
  /-- the monitors held, oldest first -/
  monitors : List ω
  /-- the variables -/
  locals : SavedData ω
  /-- the operands -/
  stack : SavedData ω
deriving DecidableEq, Repr, Inhabited

/-- The objects that a frame refers to. -/
def SavedFrame.refs {ω : Type} (f : SavedFrame ω) : List ω :=
  f.monitors ++ f.locals.objects ++ f.stack.objects

/-- Equivalent frames for different versions of the code. -/
structure VersionedFrame (ω : Type) where
  /-- in the order in which they are tried -/
  representations : List (SavedFrame ω)
deriving DecidableEq, Repr, Inhabited

/-- Everything that is needed to resume a coroutine. -/
structure Snapshot (ω : Type) where
  /-- the object whose entry point runs -/
  payload : ω
  /-- outermost first -/
  frames : List (VersionedFrame ω)
deriving DecidableEq, Repr, Inhabited

/-- The objects that a snapshot refers to. -/
def Snapshot.refs {ω : Type} (s : Snapshot ω) : List ω :=
  s.payload :: s.frames.flatMap fun v => v.representations.flatMap SavedFrame.refs

end Resumption
