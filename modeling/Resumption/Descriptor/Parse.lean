import Resumption.Descriptor.Basic

/-!
# Reading descriptors

Each reader takes a type off the front of a list of characters and leaves the rest; `parse`
functions want nothing left over. Reading accepts exactly what `render` writes, so every descriptor
has one meaning.
-/

namespace Resumption

/-- Reasons why a text is no descriptor. -/
inductive DescriptorError where
  /-- something comes behind the end -/
  | leftover (c : Char)
  /-- not a letter of a primitive type -/
  | notBase (c : Char)
  /-- nothing where such a letter should be -/
  | missingBase
  /-- a class without its semicolon -/
  | unterminatedClass (name : String)
  /-- a class name that is none -/
  | badName (error : NameError)
  /-- no class where one should be -/
  | notClass
  /-- neither a class nor an array -/
  | notReference (c : Char)
  /-- nothing where a type should be -/
  | missingType
  /-- not the beginning of a type -/
  | notField (c : Char)
  /-- no parentheses in front -/
  | notMethod
  /-- parentheses that are not closed -/
  | unterminatedParameters
deriving DecidableEq, Repr

namespace DescriptorError

/-- The wording of a descriptor error. -/
def message : DescriptorError → String
  | .leftover c => s!"Unexpected leftover input '{c}'"
  | .notBase c => s!"Invalid base type character '{c}'"
  | .missingBase => "Missing base type character"
  | .unterminatedClass name => s!"Missing terminator for 'L{name}'"
  | .badName error => error.message
  | .notClass => "Expected object type to start with `L`"
  | .notReference c => s!"Invalid reference type character '{c}'"
  | .missingType => "Missing field type"
  | .notField c => s!"Invalid field type character '{c}'"
  | .notMethod => "Expected '(' for method"
  | .unterminatedParameters => "Expected ')' for method"

/-- Did the text end too early, rather than go wrong? -/
def isEarlyEnd : DescriptorError → Bool
  | .missingBase | .unterminatedClass _ | .missingType | .unterminatedParameters => true
  | _ => false

end DescriptorError

/-- A type off the front of a text, and the rest. -/
abbrev DescriptorReader (α : Type) := List Char → Except DescriptorError (α × List Char)

/-- Wants nothing left over. -/
def DescriptorReader.whole {α : Type} (reader : DescriptorReader α) (s : String) :
    Except DescriptorError α :=
  match reader s.toList with
  | .error e => .error e
  | .ok (x, []) => .ok x
  | .ok (_, c :: _) => .error (.leftover c)

namespace BaseType

/-- Reads one letter. -/
def read : DescriptorReader BaseType
  | [] => .error .missingBase
  | c :: rest =>
    match ofLetter? c with
    | some t => .ok (t, rest)
    | none => .error (.notBase c)

/-- Reads a text that has to be the letter of a primitive type and nothing else. -/
def parse (s : String) : Except DescriptorError BaseType := DescriptorReader.whole read s

end BaseType

namespace ClassName

/-- A class name up to and including the `;` that ends it. -/
def readTerminated (cs : List Char) : Except DescriptorError (ClassName × List Char) :=
  let name := String.ofList (cs.takeWhile (· != ';'))
  match cs.dropWhile (· != ';') with
  | [] => .error (.unterminatedClass name)
  | _ :: rest =>
    match ofString name with
    | .ok c => .ok (c, rest)
    | .error e => .error (.badName e)

/-- A class name between `L` and `;`. -/
def readDescriptor : DescriptorReader ClassName
  | 'L' :: rest => readTerminated rest
  | _ => .error .notClass

/-- Reads a text that has to be one class descriptor and nothing else. -/
def parseDescriptor (s : String) : Except DescriptorError ClassName :=
  DescriptorReader.whole readDescriptor s

end ClassName

namespace RefType

/-- The element of an array type with `extra + 1` dimensions. -/
def readElement (extra : Nat) : DescriptorReader RefType
  | 'L' :: rest => do
    let (name, rest) ← ClassName.readTerminated rest
    return (.objectArray extra name, rest)
  | cs => do
    let (type, rest) ← BaseType.read cs
    return (.primitiveArray extra type, rest)

/-- Reads a class or an array. All brackets in front are counted first. -/
def read : DescriptorReader RefType
  | [] => .error .missingType
  | 'L' :: rest => do
    let (name, rest) ← ClassName.readTerminated rest
    return (.object name, rest)
  | '[' :: rest => readElement (rest.takeWhile (· == '[')).length (rest.dropWhile (· == '['))
  | c :: _ => .error (.notReference c)

/-- Reads a text that has to be one reference type and nothing else. -/
def parse (s : String) : Except DescriptorError RefType := DescriptorReader.whole read s

end RefType

namespace FieldType

/-- Reads a primitive type, a class or an array. -/
def read : DescriptorReader FieldType
  | [] => .error .missingType
  | c :: rest =>
    match BaseType.ofLetter? c with
    | some t => .ok (.base t, rest)
    | none =>
      if c = 'L' || c = '[' then do
        let (type, rest) ← RefType.read (c :: rest)
        return (.ref type, rest)
      else .error (.notField c)

/-- Reads a text that has to be one type and nothing else. -/
def parse (s : String) : Except DescriptorError FieldType := DescriptorReader.whole read s

end FieldType

namespace MethodDescriptor

/-- Parameters up to the closing parenthesis, which is left; `read` are those before, last first.
Every parameter takes a character, so `fuel` characters are enough. -/
def readParameters : (fuel : Nat) → (read : List FieldType) → DescriptorReader (List FieldType)
  | 0, read, cs => .ok (read.reverse, cs)
  | fuel + 1, read, cs =>
    match cs with
    | [] => .ok (read.reverse, [])
    | ')' :: rest => .ok (read.reverse, ')' :: rest)
    | cs => do
      let (type, rest) ← FieldType.read cs
      readParameters fuel (type :: read) rest

/-- The result: `V` for none. -/
def readResult : DescriptorReader (Option FieldType)
  | 'V' :: rest => .ok (none, rest)
  | cs => do
    let (type, rest) ← FieldType.read cs
    return (some type, rest)

/-- Reads parameters in parentheses and a result. -/
def read : DescriptorReader MethodDescriptor
  | '(' :: rest => do
    let (parameters, rest) ← readParameters rest.length [] rest
    match rest with
    | ')' :: rest =>
      let (result, rest) ← readResult rest
      return ({ parameters, result }, rest)
    | _ => .error .unterminatedParameters
  | _ => .error .notMethod

/-- Reads a text that has to be one method descriptor and nothing else. -/
def parse (s : String) : Except DescriptorError MethodDescriptor := DescriptorReader.whole read s

end MethodDescriptor

end Resumption
