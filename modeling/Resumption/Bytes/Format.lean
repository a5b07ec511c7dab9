import Resumption.Text.Utf8

/-!
# Big endian byte formats

Class headers and snapshots are byte sequences in which every number is big endian and a string
is its length, in two bytes, followed by its UTF-8 encoding. A **writer** is a function to a list
of bytes, a **reader** takes the front of a list of bytes and leaves the rest. Readers of counted
sequences read item by item, so a count far beyond the input fails at the first missing item.
-/

namespace Resumption.Bytes

/-- Reasons why bytes cannot be read or written. -/
inductive FormatError where
  /-- the input ends inside an item -/
  | endOfInput
  /-- the bytes of a string that is not UTF-8 -/
  | badText (bytes : List UInt8) (fault : Text.Utf8.Fault)
  /-- a string whose length does not fit in two bytes -/
  | stringTooLong
  /-- a sequence whose length does not fit in two bytes -/
  | sequenceTooLong
deriving DecidableEq, Repr

/-- The wording of a format error. -/
def FormatError.message : FormatError → String
  | .endOfInput => "failed to fill whole buffer"
  | .badText _ fault => fault.message
  | .stringTooLong => "string too long"
  | .sequenceTooLong => "sequence too long"

/-! ## Writing -/

/-- The `width` low bytes of a number, most significant first. -/
def ofNat : (width : Nat) → Nat → List UInt8
  | 0, _ => []
  | width + 1, n => UInt8.ofNat (n >>> (8 * width)) :: ofNat width n

/-- A 32 bit integer. -/
def ofInt32 (n : Int32) : List UInt8 := ofNat 4 n.toUInt32.toNat

/-- A 64 bit integer. -/
def ofInt64 (n : Int64) : List UInt8 := ofNat 8 n.toUInt64.toNat

/-- A string: two bytes of length, then UTF-8. -/
def ofString (s : String) : Except FormatError (List UInt8) :=
  let bytes := Text.Utf8.encode s
  if bytes.length < 0x10000 then .ok (ofNat 2 bytes.length ++ bytes) else .error .stringTooLong

/-- The concatenation of the items, or the first failure. -/
def ofItems {α ε : Type} (item : α → Except ε (List UInt8)) (xs : List α) :
    Except ε (List UInt8) := do
  let parts ← xs.mapM item
  return parts.flatten

/-- A sequence: two bytes of length, then the items. -/
def ofList {α : Type} (item : α → Except FormatError (List UInt8)) (xs : List α) :
    Except FormatError (List UInt8) :=
  if xs.length < 0x10000 then do return ofNat 2 xs.length ++ (← ofItems item xs)
  else .error .sequenceTooLong

/-! ## Reading -/

/-- Takes the front of a byte sequence and leaves the rest. -/
abbrev Reader := StateT (List UInt8) (Except FormatError)

/-- The number that big endian bytes stand for. -/
def toNat (bytes : List UInt8) : Nat := bytes.foldl (fun n b => 256 * n + b.toNat) 0

/-- The next `n` bytes. -/
def take (n : Nat) : Reader (List UInt8) := fun bytes =>
  let (front, rest) := bytes.splitAt n
  if front.length = n then .ok (front, rest) else .error .endOfInput

/-- A number of `width` bytes. -/
def nat (width : Nat) : Reader Nat := do return toNat (← take width)

/-- A 32 bit integer. -/
def int32 : Reader Int32 := do return (UInt32.ofNat (← nat 4)).toInt32

/-- A 64 bit integer. -/
def int64 : Reader Int64 := do return (UInt64.ofNat (← nat 8)).toInt64

/-- A string with two bytes of length. -/
def string : Reader String := do
  let length ← nat 2
  let bytes ← take length
  match Text.Utf8.decode bytes with
  | .ok s => return s
  | .error fault => throw (.badText bytes fault)

/-- `n` further items behind those already read, which are kept last first. -/
@[specialize]
def itemsOnto {α : Type} {m : Type → Type} [Monad m] (item : m α) : Nat → List α → m (List α)
  | 0, read => return read.reverse
  | n + 1, read => do
    let x ← item
    itemsOnto item n (x :: read)

/-- `n` items one after the other. -/
@[specialize]
def items {α : Type} {m : Type → Type} [Monad m] (n : Nat) (item : m α) : m (List α) :=
  itemsOnto item n []

/-- A sequence with two bytes of length. -/
def list {α : Type} (item : Reader α) : Reader (List α) := do
  let length ← nat 2
  items length item

end Resumption.Bytes
