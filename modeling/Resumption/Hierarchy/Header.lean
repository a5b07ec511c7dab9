import Resumption.Bytes.Format
import Resumption.Class.Access
import Resumption.Hierarchy.Basic
import Resumption.Text.Hexadecimal

/-!
# Class file headers

The front of a class file, up to and including the interfaces: all that a hierarchy needs. Names are
found through the constant pool, in which entries are numbered from 1 and eight byte constants take
two numbers. Numbers in the pool are 16 bit words and their arithmetic wraps.

* **`ClassHeader.parse`** reads a header, and pays no attention to what follows it.
* **`ClassHeader.serialize`** writes a whole class file without members: each class is a text
  constant followed by the class constant that refers to it.
-/

namespace Resumption

/-- The front of a class file. -/
structure ClassHeader where
  /-- the minor version of the format -/
  minor : Nat
  /-- the major version of the format -/
  major : Nat
  /-- access flags -/
  flags : Nat
  /-- how the class is called -/
  name : ClassName
  /-- the class it extends, if any -/
  superclass : Option ClassName
  /-- what it implements -/
  interfaces : List ClassName
deriving DecidableEq, Repr, Inhabited

/-- Reasons why bytes are no class file header. -/
inductive HeaderError where
  /-- the bytes end too early, or a text is not well formed -/
  | format (error : Bytes.FormatError)
  /-- not a class file -/
  | badMagic (magic : Nat)
  /-- a constant of no known sort -/
  | unknownTag (tag : Nat) (index : Nat)
  /-- a constant that should be a class and is not -/
  | notClass (index : Nat)
  /-- a constant that should be a text and is not -/
  | notText (index : Nat)
  /-- a class name that is none -/
  | badName (error : NameError)
deriving DecidableEq, Repr

/-- The wording of a header error. -/
def HeaderError.message : HeaderError → String
  | .format error => error.message
  | .badMagic magic => s!"bad magic 0x{Text.Hexadecimal.padded 8 magic}"
  | .unknownTag tag index => s!"unknown constant pool tag {tag} at {index}"
  | .notClass index => s!"constant {index} is not a class"
  | .notText index => s!"constant {index} is not UTF-8"
  | .badName error => error.message

namespace ClassHeader

/-- The first four bytes of a class file. -/
def magic : Nat := 0xCAFEBABE

/-- The constants that a header refers to. -/
inductive Constant where
  /-- a text -/
  | text (s : String)
  /-- a class, whose name is the text at an index -/
  | class (text : UInt16)
  /-- anything else -/
  | other
deriving DecidableEq, Repr

/-- Numbered constants; of two with one number the later comes first. -/
abbrev Pool := List (UInt16 × Constant)

/-- Reads parts of a header. -/
abbrev HeaderReader := StateT (List UInt8) (Except HeaderError)

/-- Reads a number or string of the byte format. -/
def lift {α : Type} (reader : Bytes.Reader α) : HeaderReader α := fun bytes =>
  match reader bytes with
  | .ok result => .ok result
  | .error error => .error (.format error)

/-- A 16 bit word. -/
def word : HeaderReader UInt16 := do return UInt16.ofNat (← lift (Bytes.nat 2))

/-- How many bytes follow the tag of a constant that does not matter here. -/
def skipped? (tag : Nat) : Option Nat :=
  if tag = 8 || tag = 16 || tag = 19 || tag = 20 then some 2
  else if tag = 15 then some 3
  else if tag = 3 || tag = 4 || tag = 9 || tag = 10 || tag = 11 || tag = 12 || tag = 17 || tag = 18
  then some 4
  else if tag = 5 || tag = 6 then some 8
  else none

/-- The constant with this number. -/
def readConstant (index : UInt16) : HeaderReader (Constant × UInt16) := do
  let tag ← lift (Bytes.nat 1)
  if tag = 1 then
    let length ← lift (Bytes.nat 2)
    let bytes ← lift (Bytes.take length)
    return (.text (Text.Utf8.decodeLossy bytes), 1)
  else if tag = 7 then
    return (.class (← word), 1)
  else
    match skipped? tag with
    | none => throw (.unknownTag tag index.toNat)
    | some n =>
      let _ ← lift (Bytes.take n)
      return (.other, if n = 8 then 2 else 1)

/-- The constants from `index` up to below `count`. Each takes at least a byte, so as much `fuel` as
there are bytes, and one to find that none is left, is enough. -/
def readPool (count : UInt16) : (fuel : Nat) → (index : UInt16) → Pool → HeaderReader Pool
  | 0, _, pool => return pool
  | fuel + 1, index, pool =>
    if index < count then do
      let (constant, slots) ← readConstant index
      readPool count fuel (index + slots) ((index, constant) :: pool)
    else return pool

/-- The name of the class constant with this number. -/
def className (pool : Pool) (index : UInt16) : Except HeaderError ClassName :=
  match pool.lookup index with
  | some (.class text) =>
    match pool.lookup text with
    | some (.text s) =>
      match ClassName.ofString s with
      | .ok name => .ok name
      | .error e => .error (.badName e)
    | _ => .error (.notText text.toNat)
  | _ => .error (.notClass index.toNat)

/-- Reads a header. -/
def read : HeaderReader ClassHeader := do
  let found ← lift (Bytes.nat 4)
  if found ≠ magic then throw (.badMagic found)
  let minor ← lift (Bytes.nat 2)
  let major ← lift (Bytes.nat 2)
  let count ← word
  let pool ← readPool count ((← get).length + 1) 1 []
  let flags := classFlags.known (← lift (Bytes.nat 2))
  let this ← word
  let super ← word
  let interfaces ← lift (Bytes.list (Bytes.nat 2))
  let name ← className pool this
  let superclass ← if super = 0 then pure none else some <$> className pool super
  let interfaces ← interfaces.mapM fun index => className pool (UInt16.ofNat index)
  return { minor, major, flags, name, superclass, interfaces }

/-- The header at the front of the bytes of a class file. -/
def parse (bytes : List UInt8) : Except HeaderError ClassHeader :=
  match read bytes with
  | .ok (header, _) => .ok header
  | .error e => .error e

/-- The facts about the class. -/
def typeInfo (h : ClassHeader) : TypeInfo where
  name := h.name
  superclass := h.superclass
  interfaces := h.interfaces
  isInterface := hasFlag h.flags interfaceFlag

/-- The classes that the header names, in the order of their constants. -/
def classes (h : ClassHeader) : List ClassName := h.name :: h.superclass.toList ++ h.interfaces

/-- The number of the class constant of the `i`-th class. -/
def classIndex (i : Nat) : UInt16 := 2 + 2 * UInt16.ofNat i

/-- The constants of the `i`-th class: its text and the class that refers to it. -/
def poolEntry (name : ClassName) (i : Nat) : Except Bytes.FormatError (List UInt8) := do
  let text ← Bytes.ofString name.text
  return 1 :: text ++ 7 :: Bytes.ofNat 2 (1 + 2 * UInt16.ofNat i).toNat

/-- The bytes of a class file with this header and no members. -/
def serialize (h : ClassHeader) : Except Bytes.FormatError (List UInt8) := do
  let count : UInt16 := 1 + 2 * UInt16.ofNat h.classes.length
  let pool ← Bytes.ofItems (fun (name, i) => poolEntry name i) h.classes.zipIdx
  let super : UInt16 := if h.superclass.isSome then classIndex 1 else 0
  let start := if h.superclass.isSome then 2 else 1
  let indexes := (List.range h.interfaces.length).map fun i => classIndex (start + i)
  let interfaces ← Bytes.ofList (fun index : UInt16 => .ok (Bytes.ofNat 2 index.toNat)) indexes
  return Bytes.ofNat 4 magic ++ Bytes.ofNat 2 h.minor ++ Bytes.ofNat 2 h.major ++
    Bytes.ofNat 2 count.toNat ++ pool ++ Bytes.ofNat 2 h.flags ++
    Bytes.ofNat 2 (classIndex 0).toNat ++ Bytes.ofNat 2 super.toNat ++ interfaces ++
    List.replicate 6 0

end ClassHeader

namespace Hierarchy

/-- The facts in class files that are filed under the names of their classes. A file that cannot be
read, or that holds another class, tells nothing. -/
def ofClassFiles (files : List (ClassName × List UInt8)) : Hierarchy :=
  ⟨files.filterMap fun (name, bytes) =>
    match ClassHeader.parse bytes with
    | .ok header => if header.name = name then some header.typeInfo else none
    | .error _ => none⟩

end Hierarchy

end Resumption
