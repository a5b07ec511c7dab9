/-!
# Access flags

Flags of classes, methods and fields, each a bit of a 16 bit word. Bits that have no meaning for the
kind of thing are dropped when a word is read.
-/

namespace Resumption

/-- The flags with a name, in the order in which they are listed. -/
abbrev FlagTable := List (String × Nat)

/-- Flags of a class. -/
def classFlags : FlagTable :=
  [("PUBLIC", 0x0001), ("FINAL", 0x0010), ("SUPER", 0x0020), ("INTERFACE", 0x0200),
   ("ABSTRACT", 0x0400), ("SYNTHETIC", 0x1000), ("ANNOTATION", 0x2000), ("ENUM", 0x4000),
   ("MODULE", 0x8000)]

/-- Flags of a method. -/
def methodFlags : FlagTable :=
  [("PUBLIC", 0x0001), ("PRIVATE", 0x0002), ("PROTECTED", 0x0004), ("STATIC", 0x0008),
   ("FINAL", 0x0010), ("SYNCHRONIZED", 0x0020), ("BRIDGE", 0x0040), ("VARARGS", 0x0080),
   ("NATIVE", 0x0100), ("ABSTRACT", 0x0400), ("STRICT", 0x0800), ("SYNTHETIC", 0x1000)]

/-- Flags of a field. -/
def fieldFlags : FlagTable :=
  [("PUBLIC", 0x0001), ("PRIVATE", 0x0002), ("PROTECTED", 0x0004), ("STATIC", 0x0008),
   ("FINAL", 0x0010), ("VOLATILE", 0x0040), ("TRANSIENT", 0x0080), ("SYNTHETIC", 0x1000),
   ("ENUM", 0x4000)]

namespace FlagTable

/-- The bits of a word that have a meaning. -/
def known (table : FlagTable) (bits : Nat) : Nat :=
  bits &&& table.foldl (fun all flag => all ||| flag.2) 0

/-- The names of the set flags, with bars between them. -/
def describe (table : FlagTable) (bits : Nat) : String :=
  match table.filter (fun flag => bits &&& flag.2 == flag.2) with
  | [] => "(empty)"
  | set => " | ".intercalate (set.map (·.1))

end FlagTable

/-- Is a flag of this weight set? -/
def hasFlag (bits weight : Nat) : Bool := bits &&& weight == weight

/-- Weight of the flag of static methods and fields. -/
def staticFlag : Nat := 0x0008

/-- Weight of the flag of interfaces. -/
def interfaceFlag : Nat := 0x0200

end Resumption
