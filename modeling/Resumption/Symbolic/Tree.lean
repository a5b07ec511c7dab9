import Resumption.Bytes.Format
import Resumption.Descriptor.Parse
import Resumption.Text.Hexadecimal

/-!
# Trees

The values of this library as trees of numbers, texts, lists and records, for exchange with other
programs. A type that can be written has an instance of `ToTree`, one that can be read an instance
of `OfTree`.

* Numbers of at most 32 bits are numbers; those of 64 bits are texts in decimal.
* Words of bits, which is how floating point numbers are kept, and bytes are texts in hexadecimal.
* What is missing is `nothing`: as an option it is none, as a list it is empty.
-/

namespace Resumption

/-- A list, a record, or a plain value. -/
inductive Tree where
  /-- nothing -/
  | nothing
  /-- true or false -/
  | truth (b : Bool)
  /-- a whole number -/
  | number (n : Int)
  /-- a text -/
  | text (s : String)
  /-- items in order -/
  | list (items : List Tree)
  /-- items with names -/
  | record (fields : List (String × Tree))
deriving Repr, Inhabited

/-- Reasons why a tree cannot be read. -/
inductive TreeError where
  /-- a name that is none -/
  | name (e : NameError)
  /-- a descriptor that is none -/
  | descriptor (e : DescriptorError)
  /-- not what was wanted -/
  | malformed (wanted : String)
deriving DecidableEq, Repr

/-- What was read from a tree. -/
abbrev Tree.Result := Except TreeError

/-- Types whose values can be written as trees. -/
class ToTree (α : Type) where
  /-- how it is written -/
  toTree : α → Tree

/-- Types whose values can be read from trees. -/
class OfTree (α : Type) where
  /-- how it is read -/
  ofTree : Tree → Tree.Result α

export ToTree (toTree)
export OfTree (ofTree)

/-- A value stands for its tree where a tree is wanted. -/
instance {α : Type} [ToTree α] (a : α) : CoeDep α a Tree := ⟨toTree a⟩

namespace Tree

variable {α : Type}

/-- A list that starts with a word. -/
def tagged (tag : String) (items : List Tree) : Tree := .list (.text tag :: items)

/-- The failure to find what was wanted. -/
def fail (wanted : String) : Tree.Result α := .error (.malformed wanted)

/-- A field of a record. -/
def get : Tree → String → Tree
  | .record fields, name => (fields.lookup name).getD .nothing
  | _, _ => .nothing

/-- Does a record mention the field, be it as nothing? -/
def mentions : Tree → String → Bool
  | .record fields, name => (fields.lookup name).isSome
  | _, _ => false

/-- An item of a list. -/
def item : Tree → Nat → Tree
  | .list items, index => items.getD index .nothing
  | _, _ => .nothing

/-- The word that the tree is, or that a tagged list starts with. -/
def tag : Tree → String
  | .text s => s
  | .list (.text s :: _) => s
  | _ => ""

/-- Reads a field of a record. -/
def field [OfTree α] (t : Tree) (name : String) : Tree.Result α := ofTree (t.get name)

/-- Reads an item of a list. -/
def nth [OfTree α] (t : Tree) (index : Nat) : Tree.Result α := ofTree (t.item index)

/-- Reads a list with a reader for its items. -/
def each (read : Tree → Tree.Result α) : Tree → Tree.Result (List α)
  | .nothing => .ok []
  | .list items => items.mapM read
  | _ => fail "a list"

/-- Reads the fields of a record with a reader for name and content. -/
def eachField (read : String → Tree → Tree.Result α) : Tree → Tree.Result (List α)
  | .nothing => .ok []
  | .record fields => fields.mapM fun (name, t) => read name t
  | _ => fail "a record"

/-- The one of these that has the name. -/
def oneOf (name : α → String) (all : List α) : Tree → Tree.Result α
  | .text s =>
    match all.find? (name · == s) with
    | some a => .ok a
    | none => fail "one of several words"
  | _ => fail "one of several words"

end Tree

/-! ## Plain values -/

instance : ToTree Tree := ⟨id⟩
instance : OfTree Tree := ⟨.ok⟩

instance : ToTree Bool := ⟨.truth⟩
instance : ToTree Int := ⟨.number⟩
instance : ToTree Nat := ⟨fun n => .number n⟩
instance : ToTree Int16 := ⟨fun n => .number n.toInt⟩
instance : ToTree Int32 := ⟨fun n => .number n.toInt⟩
instance : ToTree String := ⟨.text⟩
instance : ToTree Int64 := ⟨fun n => .text (toString n.toInt)⟩
instance : ToTree UInt32 := ⟨fun bits => .text (Text.Hexadecimal.padded 8 bits.toNat)⟩
instance : ToTree UInt64 := ⟨fun bits => .text (Text.Hexadecimal.padded 16 bits.toNat)⟩

section

variable {α β : Type} [ToTree α] [ToTree β]

instance : ToTree (List α) := ⟨fun xs => .list (xs.map toTree)⟩
instance : ToTree (Array α) := ⟨fun xs => .list (xs.toList.map toTree)⟩
instance : ToTree (α × β) := ⟨fun (a, b) => .list [toTree a, toTree b]⟩

instance : ToTree (Option α) where
  toTree
    | some a => toTree a
    | none => .nothing

end

instance : ToTree (List UInt8) :=
  ⟨fun bytes => .text (String.ofList (bytes.flatMap Text.Hexadecimal.byte))⟩

instance : OfTree Bool where
  ofTree
    | .truth b => .ok b
    | _ => Tree.fail "a truth value"

instance : OfTree Int where
  ofTree
    | .number n => .ok n
    | _ => Tree.fail "a number"

instance : OfTree String where
  ofTree
    | .text s => .ok s
    | _ => Tree.fail "a text"

instance : OfTree Nat := ⟨fun t => Int.toNat <$> ofTree t⟩
instance : OfTree Int16 := ⟨fun t => Int16.ofInt <$> ofTree t⟩
instance : OfTree Int32 := ⟨fun t => Int32.ofInt <$> ofTree t⟩

instance : OfTree Int64 where
  ofTree t := do
    let s : String ← ofTree t
    match s.toInt? with
    | some n => return Int64.ofInt n
    | none => Tree.fail "a decimal number"

/-- The bytes that pairs of hexadecimal digits stand for. -/
def Tree.bytesOf : List Char → Tree.Result (List UInt8)
  | [] => .ok []
  | [_] => fail "pairs of digits"
  | a :: b :: rest =>
    match Text.Hexadecimal.value? a, Text.Hexadecimal.value? b with
    | some x, some y => do return UInt8.ofNat (16 * x + y) :: (← bytesOf rest)
    | _, _ => fail "hexadecimal digits"

section

variable {α β : Type} [OfTree α] [OfTree β]

instance : OfTree (List α) := ⟨Tree.each ofTree⟩
instance : OfTree (α × β) := ⟨fun t => do return (← t.nth 0, ← t.nth 1)⟩

instance : OfTree (Option α) where
  ofTree
    | .nothing => .ok none
    | t => some <$> ofTree t

end

instance : OfTree (List UInt8) where
  ofTree t := do
    let s : String ← ofTree t
    Tree.bytesOf s.toList

/-- The number that hexadecimal digits stand for. -/
def Tree.bits (t : Tree) : Tree.Result Nat := do
  let bytes : List UInt8 ← ofTree t
  return Bytes.toNat bytes

instance : OfTree UInt32 := ⟨fun t => UInt32.ofNat <$> t.bits⟩
instance : OfTree UInt64 := ⟨fun t => UInt64.ofNat <$> t.bits⟩

/-- Reads a field of a record that may be missing. -/
def Tree.fieldD {α : Type} [OfTree α] (t : Tree) (name : String) (otherwise : α) :
    Tree.Result α := do
  let found : Option α ← t.field name
  return found.getD otherwise

/-! ## Names and descriptors -/

/-- Reads a text that is checked for its form. -/
def Tree.checked {α ε : Type} (error : ε → TreeError) (check : String → Except ε α) (t : Tree) :
    Tree.Result α := do
  match check (← ofTree t) with
  | .ok a => return a
  | .error e => throw (error e)

instance : ToTree ClassName := ⟨fun c => .text c.text⟩
instance : OfTree ClassName := ⟨Tree.checked .name ClassName.ofString⟩

instance : ToTree MemberName := ⟨fun n => .text n.text⟩
instance : OfTree MemberName := ⟨Tree.checked .name MemberName.ofString⟩

instance : ToTree BaseType := ⟨fun t => .text (String.ofList [t.letter])⟩
instance : OfTree BaseType := ⟨Tree.checked .descriptor BaseType.parse⟩

instance : ToTree RefType := ⟨fun t => .text t.render⟩
instance : OfTree RefType := ⟨Tree.checked .descriptor RefType.parse⟩

instance : ToTree FieldType := ⟨fun t => .text t.render⟩
instance : OfTree FieldType := ⟨Tree.checked .descriptor FieldType.parse⟩

instance : ToTree MethodDescriptor := ⟨fun d => .text d.render⟩
instance : OfTree MethodDescriptor := ⟨Tree.checked .descriptor MethodDescriptor.parse⟩

end Resumption
