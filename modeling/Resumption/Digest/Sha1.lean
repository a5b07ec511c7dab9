/-!
# SHA-1

The 160 bit digest of a byte sequence. Method identities are prefixes of it. The message is padded
to whole blocks of sixteen words (`pad`), and each block is mixed into the five word state
(`compress`).
-/

namespace Resumption.Digest.Sha1

/-- The five words of the running digest. -/
structure State where
  /-- the first word -/
  a : UInt32
  /-- the second word -/
  b : UInt32
  /-- the third word -/
  c : UInt32
  /-- the fourth word -/
  d : UInt32
  /-- the fifth word -/
  e : UInt32
deriving DecidableEq, Repr

/-- The digest before any block. -/
def State.start : State := ⟨0x67452301, 0xEFCDAB89, 0x98BADCFE, 0x10325476, 0xC3D2E1F0⟩

/-- Rotation to the left by `n` bits, `n` between 1 and 31. -/
def rotate (n x : UInt32) : UInt32 := (x <<< n) ||| (x >>> (32 - n))

/-- The message, a one bit, zeros up to 56 modulo 64 bytes, and the length in bits. -/
def pad (message : List UInt8) : List UInt8 :=
  let length := message.length
  let zeros := (119 - length % 64) % 64
  let bits := 8 * length
  let tail : List UInt8 := (List.range 8).map fun i => UInt8.ofNat (bits >>> (8 * (7 - i)))
  message ++ [0x80] ++ List.replicate zeros 0 ++ tail

/-- Big endian words of a byte sequence whose length is a multiple of four. -/
def words : List UInt8 → List UInt32
  | b0 :: b1 :: b2 :: b3 :: rest =>
    ((b0.toUInt32 <<< 24) ||| (b1.toUInt32 <<< 16) ||| (b2.toUInt32 <<< 8) ||| b3.toUInt32) ::
      words rest
  | _ => []

/-- The next word of the schedule, from the sixteen before it, newest first. -/
def nextWord (recent : List UInt32) : UInt32 :=
  rotate 1 (recent.getD 2 0 ^^^ recent.getD 7 0 ^^^ recent.getD 13 0 ^^^ recent.getD 15 0)

/-- `n` further words in front of the schedule, which is kept newest first. -/
def extend : Nat → List UInt32 → List UInt32
  | 0, schedule => schedule
  | n + 1, schedule => extend n (nextWord schedule :: schedule)

/-- One round: the round number picks the mixing function and the constant. -/
def round (s : State) (t : Nat) (w : UInt32) : State :=
  let (f, k) : UInt32 × UInt32 :=
    if t < 20 then ((s.b &&& s.c) ||| (~~~ s.b &&& s.d), 0x5A827999)
    else if t < 40 then (s.b ^^^ s.c ^^^ s.d, 0x6ED9EBA1)
    else if t < 60 then ((s.b &&& s.c) ||| (s.b &&& s.d) ||| (s.c &&& s.d), 0x8F1BBCDC)
    else (s.b ^^^ s.c ^^^ s.d, 0xCA62C1D6)
  ⟨rotate 5 s.a + f + s.e + k + w, s.a, rotate 30 s.b, s.c, s.d⟩

/-- The rounds from number `t` on. -/
def rounds (t : Nat) (s : State) : List UInt32 → State
  | [] => s
  | w :: ws => rounds (t + 1) (round s t w) ws

/-- Mixes a block of sixteen words into the state. -/
def compress (s : State) (block : List UInt32) : State :=
  let r := rounds 0 s (extend 64 block.reverse).reverse
  ⟨s.a + r.a, s.b + r.b, s.c + r.c, s.d + r.d, s.e + r.e⟩

/-- Mixes the blocks of a word sequence, `n` at most, into the state. -/
def blocks : Nat → State → List UInt32 → State
  | 0, s, _ => s
  | n + 1, s, ws => if ws.isEmpty then s else blocks n (compress s (ws.take 16)) (ws.drop 16)

/-- The digest of a byte sequence. -/
def digest (message : List UInt8) : State :=
  let ws := words (pad message)
  blocks ws.length State.start ws

end Resumption.Digest.Sha1
