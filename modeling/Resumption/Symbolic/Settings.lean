import Resumption.Hierarchy.Source
import Resumption.Instrument.Settings
import Resumption.Symbolic.Class

/-!
# Settings and sources as trees

Settings are records in which every field may be missing. Directories are records of file contents
by path.
-/

namespace Resumption

/-! ## Settings -/

/-- The word for it in settings. -/
def Announcement.word : Announcement → String
  | .silent => "None"
  | .constant => "ConstantPool"
  | .printed => "StdoutPrint"

instance : OfTree Announcement := ⟨Tree.oneOf Announcement.word [.silent, .constant, .printed]⟩

/-- The policy that a field names: by reach in the unit of these classes, or by parameter. -/
def SuspendPolicy.ofField (unit : List Class) (t : Tree) : Tree.Result SuspendPolicy := do
  return if (← t.fieldD "policy" "parameter") == "unit" then .ofUnit unit else .byParameter

/-- The settings in a record, with defaults for what it leaves out. -/
def Settings.ofRecord (unit : List Class) (t : Tree) : Tree.Result Settings := do
  let owner : Option ClassName ← t.field "allocator"
  return { announcement := ← t.fieldD "markers" .silent
           keepLineNumbers := ← t.fieldD "lines" true
           allocator := match owner with
             | some owner => .custom owner
             | none => .instruction
           policy := ← SuspendPolicy.ofField unit t }

/-! ## Sources -/

/-- Files by their path below a root. -/
def PathFile.ofRecord : Tree → Tree.Result (List PathFile) :=
  Tree.eachField fun path content => do return ⟨path.splitOn "/", ← ofTree content⟩

/-- A directory that may not be there. -/
def PathFile.ofRoot : Tree → Tree.Result (Option (List PathFile))
  | .nothing => .ok none
  | t => some <$> PathFile.ofRecord t

instance : OfTree HierarchySource where
  ofTree t := do
    if t.mentions "models" then return .classes (← t.field "models")
    else if t.mentions "bytes" then
      return .classFiles (← (t.get "bytes").eachField fun name content => do
        return (← ofTree (.text name), ← ofTree content))
    else if t.mentions "classpath" then
      return .directories (← (t.get "classpath").each PathFile.ofRoot)
    else return .library

end Resumption
