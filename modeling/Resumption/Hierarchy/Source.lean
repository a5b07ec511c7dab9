import Resumption.Class.Basic
import Resumption.Hierarchy.Classpath
import Resumption.Hierarchy.Library

/-!
# Sources of facts about classes

A hierarchy put together from several sources; for a class that several know, the first one counts.
-/

namespace Resumption

/-- Where facts about classes come from. -/
inductive HierarchySource where
  /-- the classes that are there anyway -/
  | library
  /-- classes that are given -/
  | classes (cs : List Class)
  /-- class files by the name they are looked up by -/
  | classFiles (files : List (ClassName × List UInt8))
  /-- directories of class files; one that is not there is none -/
  | directories (roots : List (Option (List PathFile)))
deriving Repr, Inhabited

/-- A directory of a class path cannot be read. -/
structure MissingDirectory where
  /-- which of the directories it is -/
  index : Nat
deriving DecidableEq, Repr

/-- The class path of numbered directories, all of which must be there. -/
def Classpath.ofDirectories (roots : List (Option (List PathFile))) :
    Except MissingDirectory Classpath := do
  let numbered ← roots.zipIdx.mapM fun (root, index) =>
    match root with
    | some files => .ok (toString index, files)
    | none => .error ⟨index⟩
  return .scan numbered

namespace HierarchySource

/-- The types that a source has. -/
def hierarchy : HierarchySource → Except MissingDirectory Hierarchy
  | .library => .ok Library.hierarchy
  | .classes cs => .ok (.ofClasses cs)
  | .classFiles files => .ok (.ofClassFiles files)
  | .directories roots => Classpath.hierarchy <$> Classpath.ofDirectories roots

/-- The hierarchy of several sources. -/
def combine (sources : List HierarchySource) : Except MissingDirectory Hierarchy := do
  return (← sources.mapM hierarchy).foldl Hierarchy.orElse ⟨[]⟩

end HierarchySource

end Resumption
