import Resumption.Hierarchy.Header

/-!
# Class paths

Facts from directories of class files. Directories are searched in order, and files inside a
directory in the order of their paths, component by component; the first file that holds a class
wins. Files that are no class files, by name or by content, are passed over.
-/

namespace Resumption

/-- A file that was found under a root: the components of its path below the root, none if it is the
root itself, and its content. -/
structure PathFile where
  /-- the directories on the way and its own name -/
  path : List String
  /-- its bytes -/
  content : List UInt8
deriving Repr, Inhabited

/-- A class on a class path, and the file it came from. -/
structure FoundClass where
  /-- what its file says -/
  info : TypeInfo
  /-- the file -/
  origin : String
deriving Repr, Inhabited

/-- The classes of a class path, first found first, each class once. -/
structure Classpath where
  /-- what was found, the first of a name counts -/
  classes : List FoundClass
deriving Repr, Inhabited

namespace Classpath

/-- Order of two paths: by the bytes of their components, a directory before what is in it. -/
def pathLE : List String → List String → Bool
  | [], _ => true
  | _ :: _, [] => false
  | a :: as, b :: bs => a < b || (a == b && pathLE as bs)

/-- Does a file name end in `.class`, with something in front of the point? -/
def isClassFile (name : String) : Bool :=
  let cs := name.toList
  let suffix := ".class".toList
  suffix.length < cs.length && suffix.isSuffixOf cs

/-- The last component of a path in one text. -/
def fileName (path : String) : String := (path.splitOn "/").getLastD ""

/-- A root with the components below it. -/
def join (root : String) (path : List String) : String :=
  if path.isEmpty then root
  else
    let separator := if root.endsWith "/" then "" else "/"
    root ++ separator ++ "/".intercalate path

/-- Adds the class of a file, unless it was found before. -/
def addFile (root : String) (found : List FoundClass) (file : PathFile) : List FoundClass :=
  let origin := join root file.path
  if !isClassFile (fileName origin) then found
  else
    match ClassHeader.parse file.content with
    | .error _ => found
    | .ok header =>
      if found.any (·.info.name == header.name) then found
      else found ++ [⟨header.typeInfo, origin⟩]

/-- Searches directories, each with the path that origins start with. -/
def scan (directories : List (String × List PathFile)) : Classpath :=
  ⟨directories.foldl (fun found (root, files) =>
    (files.mergeSort (fun a b => pathLE a.path b.path)).foldl (addFile root) found) []⟩

/-- The file a class was found in. -/
def origin? (c : Classpath) (name : ClassName) : Option String :=
  (c.classes.find? (·.info.name == name)).map (·.origin)

/-- The facts of the class path. -/
def hierarchy (c : Classpath) : Hierarchy := ⟨c.classes.map (·.info)⟩

end Classpath

end Resumption
