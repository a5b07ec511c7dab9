/-!
# UTF-8 with positions of faults

Strings are stored as UTF-8. Reading them back has three parts:

* **`decode`** accepts exactly the encodings of strings, and otherwise says where the first
  fault is and how long it is;
* **`Fault.message`** words that fault;
* **`decodeLossy`** never fails: every fault becomes one replacement character.

A fault covers the longest run of bytes that starts some encoding and cannot be continued; when
the input ends inside an encoding, the fault is *incomplete* and covers the rest.
-/

namespace Resumption.Text.Utf8

/-- What stands at the front of a non-empty byte sequence. -/
inductive Front where
  /-- a character and the number of bytes it takes -/
  | char (c : Char) (length : Nat)
  /-- bytes that no continuation can turn into a character -/
  | invalid (length : Nat)
  /-- the input ends inside a character -/
  | incomplete
deriving Repr, DecidableEq

/-- The first fault of a byte sequence. -/
structure Fault where
  /-- number of bytes before it, which are all well formed -/
  index : Nat
  /-- length of the invalid run, or `none` when the input ends too early -/
  length : Option Nat
deriving Repr, DecidableEq

/-- The wording of a fault. -/
def Fault.message (f : Fault) : String :=
  match f.length with
  | some n => s!"invalid utf-8 sequence of {n} bytes from index {f.index}"
  | none => s!"incomplete utf-8 byte sequence from index {f.index}"

/-- A byte that continues a character. -/
def isContinuation (b : UInt8) : Bool := 0x80 ≤ b && b ≤ 0xBF

/-- The second byte of a three byte character is restricted by the first: no overlong forms and
no surrogates. -/
def secondOfThree (b0 b1 : UInt8) : Bool :=
  if b0 = 0xE0 then 0xA0 ≤ b1 && b1 ≤ 0xBF
  else if b0 = 0xED then 0x80 ≤ b1 && b1 ≤ 0x9F
  else isContinuation b1

/-- The second byte of a four byte character is restricted by the first: no overlong forms and
nothing above the last code point. -/
def secondOfFour (b0 b1 : UInt8) : Bool :=
  if b0 = 0xF0 then 0x90 ≤ b1 && b1 ≤ 0xBF
  else if b0 = 0xF4 then 0x80 ≤ b1 && b1 ≤ 0x8F
  else isContinuation b1

/-- The six payload bits of a continuation byte. -/
def low6 (b : UInt8) : Nat := b.toNat % 64

/-- Reads the front of a byte sequence with first byte `b0`. -/
def front (b0 : UInt8) (rest : List UInt8) : Front :=
  if b0 < 0x80 then .char (Char.ofNat b0.toNat) 1
  else if 0xC2 ≤ b0 && b0 ≤ 0xDF then
    match rest with
    | [] => .incomplete
    | b1 :: _ =>
      if isContinuation b1 then .char (Char.ofNat (b0.toNat % 32 * 64 + low6 b1)) 2 else .invalid 1
  else if 0xE0 ≤ b0 && b0 ≤ 0xEF then
    match rest with
    | [] => .incomplete
    | b1 :: rest =>
      if !secondOfThree b0 b1 then .invalid 1
      else match rest with
        | [] => .incomplete
        | b2 :: _ =>
          if isContinuation b2 then
            .char (Char.ofNat ((b0.toNat % 16 * 64 + low6 b1) * 64 + low6 b2)) 3
          else .invalid 2
  else if 0xF0 ≤ b0 && b0 ≤ 0xF4 then
    match rest with
    | [] => .incomplete
    | b1 :: rest =>
      if !secondOfFour b0 b1 then .invalid 1
      else match rest with
        | [] => .incomplete
        | b2 :: rest =>
          if !isContinuation b2 then .invalid 2
          else match rest with
            | [] => .incomplete
            | b3 :: _ =>
              if isContinuation b3 then
                .char (Char.ofNat (((b0.toNat % 8 * 64 + low6 b1) * 64 + low6 b2) * 64 + low6 b3)) 4
              else .invalid 3
  else .invalid 1

/-- The first fault at or after `index`; `skip` bytes of a character already read are passed
over. -/
def faultFrom (index skip : Nat) : List UInt8 → Option Fault
  | [] => none
  | b :: rest =>
    match skip with
    | skip + 1 => faultFrom (index + 1) skip rest
    | 0 =>
      match front b rest with
      | .char _ n => faultFrom (index + 1) (n - 1) rest
      | .invalid n => some ⟨index, some n⟩
      | .incomplete => some ⟨index, none⟩

/-- The first fault of a byte sequence. -/
def fault? (bytes : List UInt8) : Option Fault := faultFrom 0 0 bytes

/-- The bytes of a string. -/
def encode (s : String) : List UInt8 := s.toUTF8.data.toList

/-- The string whose bytes these are, or the first fault. -/
def decode (bytes : List UInt8) : Except Fault String :=
  match String.fromUTF8? ⟨bytes.toArray⟩ with
  | some s => .ok s
  | none => .error ((fault? bytes).getD ⟨0, none⟩)

/-- Characters of a byte sequence from the back of `acc` on, with a replacement character for
every fault; `skip` bytes already accounted for are passed over. -/
def lossyFrom (acc : List Char) (skip : Nat) : List UInt8 → List Char
  | [] => acc.reverse
  | b :: rest =>
    match skip with
    | skip + 1 => lossyFrom acc skip rest
    | 0 =>
      match front b rest with
      | .char c n => lossyFrom (c :: acc) (n - 1) rest
      | .invalid n => lossyFrom ('\ufffd' :: acc) (n - 1) rest
      | .incomplete => ('\ufffd' :: acc).reverse

/-- Reads a byte sequence, putting a replacement character for every fault. -/
def decodeLossy (bytes : List UInt8) : String := String.ofList (lossyFrom [] 0 bytes)

end Resumption.Text.Utf8
