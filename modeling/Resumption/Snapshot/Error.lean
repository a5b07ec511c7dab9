import Resumption.Bytes.Format
import Resumption.Descriptor.Parse
import Resumption.Heap.Value
import Resumption.Snapshot.Basic

/-!
# What can go wrong with a snapshot
-/

namespace Resumption

/-- Reasons why an object cannot be written or read. -/
inductive ObjectFault where
  /-- more items than a count of four bytes can say -/
  | sequenceTooLong
  /-- more versions than a count of two bytes can say -/
  | tooManyRepresentations
  /-- a place of the handle that there is not -/
  | handleOutOfRange (index count : Nat)
  /-- more fields than a count of two bytes can say -/
  | tooManyFields (owner : ClassName)
  /-- more elements than a count of four bytes can say -/
  | arrayTooLong
  /-- an object that belongs to the machine -/
  | notWritable (type : RefType)
  /-- a reference that leads nowhere -/
  | notOnHeap (r : Ref)
  /-- a number that no object has -/
  | unknownReference (index : Nat)
  /-- a byte that begins no object -/
  | unknownTag (tag : Nat)
  /-- a name that is none -/
  | badName (e : NameError)
deriving DecidableEq, Repr

/-- What is reported when objects cannot be written or read. -/
def ObjectFault.message : ObjectFault → String
  | .sequenceTooLong => "sequence too long"
  | .tooManyRepresentations => "too many frame representations"
  | .handleOutOfRange index count => s!"continuation index {index} out of {count} objects"
  | .tooManyFields owner => s!"too many fields in {owner.text}"
  | .arrayTooLong => "array too long"
  | .notWritable type => s!"{type.render} objects cannot be written"
  | .notOnHeap r => s!"bad reference: {r.describe} is not on the heap"
  | .unknownReference index => s!"back reference to unknown object {index}"
  | .unknownTag tag => s!"unknown object tag {tag}"
  | .badName e => e.message

/-- What can go wrong with a snapshot. -/
inductive SnapshotError where
  /-- two rules of one kind for one key -/
  | duplicateRule (key : FrameKey)
  /-- a rule that may not change the key has changed it -/
  | interceptChangedKey (key : FrameKey)
  /-- a rule that has to change the key has kept it -/
  | updateKeptKey (key : FrameKey)
  /-- update rules lead back to a key -/
  | updateCycle (key : FrameKey)
  /-- no version of a frame can be loaded -/
  | noLoadableFrame (tried : List FrameKey)
  /-- not a snapshot -/
  | badMagic (magic : Nat)
  /-- another format -/
  | unsupportedVersion (version : Nat)
  /-- the input ends early -/
  | truncated
  /-- a text that is too long or not well formed -/
  | format (e : Bytes.FormatError)
  /-- a descriptor that is none -/
  | descriptor (e : DescriptorError)
  /-- objects that cannot be written or read -/
  | object (fault : ObjectFault)
deriving DecidableEq, Repr

namespace SnapshotError

/-- The wording of an error. -/
def message : SnapshotError → String
  | .duplicateRule key => s!"more than one rule of a kind for {key.render}"
  | .interceptChangedKey key => s!"intercept rule for {key.render} changed the frame key"
  | .updateKeptKey key => s!"update rule for {key.render} did not change the frame key"
  | .updateCycle key => s!"update rules loop back to {key.render}"
  | .noLoadableFrame tried =>
    let keys := String.join (tried.map fun key => s!" {key.render}")
    s!"no loadable frame or updatable frame detected (tried{keys})"
  | .badMagic magic => s!"bad snapshot magic number 0x{Text.Hexadecimal.padded 8 magic}"
  | .unsupportedVersion version => s!"unsupported snapshot format version {version}"
  | .truncated => "snapshot is truncated"
  | .format e => s!"I/O error: {e.message}"
  | .descriptor e => s!"I/O error: {e.message}"
  | .object fault => s!"object codec error: {fault.message}"

/-- A fault in the bytes; input that ends early has a name of its own. -/
def ofFormat : Bytes.FormatError → SnapshotError
  | .endOfInput => .truncated
  | e => .format e

/-- A fault in a descriptor; one that ends early counts as input that ends early. -/
def ofDescriptor (e : DescriptorError) : SnapshotError :=
  if e.isEarlyEnd then .truncated else .descriptor e

end SnapshotError

end Resumption
