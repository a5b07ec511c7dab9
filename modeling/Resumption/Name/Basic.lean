/-!
# Names of classes and members

A **member name** (of a method or field) is any non-empty text without the characters `.`, `;`, `[`
and `/`. A **class name** is a sequence of such segments with `/` between them. Validity is part of
both types, so a name that exists can be put into a descriptor without checking it again.
-/

namespace Resumption

/-- Reasons why a text is no name. -/
inductive NameError where
  /-- a character that cannot stand in a name -/
  | illegalCharacter (text : String)
  /-- two slashes without anything in between -/
  | emptySegment
  /-- nothing at all -/
  | emptyName
deriving DecidableEq, Repr

/-- The wording of a name error. -/
def NameError.message : NameError → String
  | .illegalCharacter text => s!"Unqualified name '{text}' contains an illegal character"
  | .emptySegment => "Unqualified name '' is empty"
  | .emptyName => "Binary name '' is empty"

namespace Name

/-- May the character stand in a member name? -/
def isPlain (c : Char) : Bool := c != '.' && c != ';' && c != '[' && c != '/'

/-- Is the text a member name? -/
def isSegment (cs : List Char) : Bool := cs.all isPlain && !cs.isEmpty

/-- The parts of a text between slashes; there is one more part than there are slashes. -/
def segments : List Char → List (List Char)
  | [] => [[]]
  | c :: cs =>
    if c = '/' then [] :: segments cs
    else
      match segments cs with
      | [] => [[c]]
      | part :: parts => (c :: part) :: parts

/-- Is the text a class name? -/
def isQualified (cs : List Char) : Bool := (segments cs).all isSegment

/-- What is wrong with a segment, if anything. -/
def segmentError? (cs : List Char) : Option NameError :=
  if !cs.all isPlain then some (.illegalCharacter (String.ofList cs))
  else if cs.isEmpty then some .emptySegment
  else none

end Name

/-- Name of a method or field. -/
structure MemberName where
  /-- the name -/
  text : String
  /-- it has at least one character, and none that cannot stand in it -/
  valid : Name.isSegment text.toList = true := by rw [String.toList_ofList]; decide +kernel
deriving DecidableEq, Repr, Hashable

/-- Name of a class or interface. -/
structure ClassName where
  /-- the name, with slashes -/
  text : String
  /-- its segments are names -/
  valid : Name.isQualified text.toList = true := by rw [String.toList_ofList]; decide +kernel
deriving DecidableEq, Repr, Hashable

instance : Inhabited MemberName := ⟨{ text := "x" }⟩

instance : Inhabited ClassName := ⟨{ text := "X" }⟩

namespace MemberName

/-- The member name with this text. -/
def ofString (s : String) : Except NameError MemberName :=
  if h : Name.isSegment s.toList = true then .ok ⟨s, h⟩
  else .error ((Name.segmentError? s.toList).getD .emptySegment)

/-- Order of member names: by code points, which is also the order of their UTF-8 bytes. -/
def lt (a b : MemberName) : Bool := a.text < b.text

end MemberName

namespace ClassName

/-- The class name with this text; of several bad segments the first is reported. -/
def ofString (s : String) : Except NameError ClassName :=
  if h : Name.isQualified s.toList = true then .ok ⟨s, h⟩
  else if s.isEmpty then .error .emptyName
  else .error (((Name.segments s.toList).findSome? Name.segmentError?).getD .emptySegment)

/-- The last segment. -/
def simpleName (c : ClassName) : String :=
  String.ofList ((Name.segments c.text.toList).getLastD [])

end ClassName

namespace Name

/-- A slash ends a segment. -/
theorem segments_append_slash (cs ds : List Char) :
    segments (cs ++ '/' :: ds) = segments cs ++ segments ds := by
  induction cs with
  | nil => simp [segments]
  | cons c cs ih =>
    by_cases h : c = '/'
    · simp [segments, h, ih]
    · simp only [List.cons_append, segments, h, if_false, ih]
      cases hs : segments cs with
      | nil =>
        exfalso
        cases cs with
        | nil => simp [segments] at hs
        | cons d cs =>
          simp only [segments] at hs
          split at hs
          · simp at hs
          · split at hs <;> simp at hs
      | cons part parts => simp

/-- Two class names with a slash between them are one. -/
theorem isQualified_append_slash (cs ds : List Char) :
    isQualified (cs ++ '/' :: ds) = (isQualified cs && isQualified ds) := by
  simp [isQualified, segments_append_slash]

end Name

/-- The name below another one. -/
def ClassName.join (a b : ClassName) : ClassName where
  text := a.text ++ "/" ++ b.text
  valid := by
    have h : (a.text ++ "/" ++ b.text).toList = a.text.toList ++ '/' :: b.text.toList := by
      simp [String.toList_append]
    rw [h, Name.isQualified_append_slash, a.valid, b.valid]
    rfl

end Resumption
