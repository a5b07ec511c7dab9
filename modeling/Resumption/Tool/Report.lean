import Resumption.Hierarchy.Classpath
import Resumption.Machine.ObjectFormat

/-!
# Reports

What the commands print: the lines up to the end, or up to the first error.
-/

namespace Resumption.Tool

/-- Why a command fails. -/
inductive ToolError where
  /-- the file cannot be read -/
  | unreadable
  /-- an argument that is no class name -/
  | badClassName (text : String) (e : NameError)
  /-- a class that was not found -/
  | missingClass (name : ClassName)
  /-- not a class file -/
  | header (e : HeaderError)
  /-- not a snapshot -/
  | snapshot (e : SnapshotError)
  /-- a reference that leads nowhere -/
  | notOnHeap (r : Ref)
deriving DecidableEq, Repr

/-- Lines, and the error that ends them. -/
structure Report where
  /-- what is printed -/
  lines : List String
  /-- why it stops there -/
  error : Option ToolError
deriving DecidableEq, Repr

namespace Report

/-- One report after the other, as long as there is no error. -/
def append (a : Report) (b : Report) : Report :=
  match a.error with
  | some _ => a
  | none => { lines := a.lines ++ b.lines, error := b.error }

/-- The lines of a result, or its error. -/
def ofResult : Except ToolError (List String) → Report
  | .ok lines => ⟨lines, none⟩
  | .error e => ⟨[], some e⟩

end Report

/-! ## Errors in words -/

/-- A record with named parts. -/
def describeRecord (name : String) (fields : List (String × String)) : String :=
  let parts := ", ".intercalate (fields.map fun (field, value) => s!"{field}: {value}")
  s!"{name} \x7b {parts} \x7d"

/-- A text that is not well formed, with its bytes. -/
def describeFault (bytes : List UInt8) (fault : Text.Utf8.Fault) : String :=
  describeRecord "FromUtf8Error"
    [("bytes", describeList (fun b => toString b.toNat) bytes),
     ("error", describeRecord "Utf8Error"
      [("valid_up_to", toString fault.index),
       ("error_len", describeOption toString fault.length)])]

/-- An error of the format underneath. -/
def describeFormat (kind error : String) : String :=
  let custom := describeRecord "Custom" [("kind", kind), ("error", error)]
  s!"Io({custom})"

/-- The error as it is reported. -/
def describeSnapshotError : SnapshotError → String
  | .badMagic magic => s!"BadMagic({magic})"
  | .unsupportedVersion version => s!"UnsupportedVersion({version})"
  | .truncated => "Truncated"
  | .format (.badText bytes fault) => describeFormat "InvalidData" (describeFault bytes fault)
  | .format e => describeFormat "InvalidInput" (Text.Quoted.quote e.message)
  | .descriptor e => describeFormat "InvalidInput" (Text.Quoted.quote e.message)
  | .object fault => s!"Object({Text.Quoted.quote fault.message})"
  | e => e.message

/-- An error as the command line shows it. What the system says about a file that cannot be read is
left out. -/
def ToolError.describe : ToolError → String
  | .unreadable => "Jvm(IoError("
  | .badClassName text e =>
    let message := s!"bad class name {Text.Quoted.quote text}: {e.message}"
    s!"Unsupported({Text.Quoted.quote message})"
  | .missingClass name => s!"Jvm(MissingClass({name.text}))"
  | .header e => s!"Jvm(MalformedClassFile({Text.Quoted.quote e.message}))"
  | .snapshot e => s!"Snapshot({describeSnapshotError e})"
  | .notOnHeap r =>
    let message := (ReferenceFault.notOnHeap r).message
    s!"BadReference({Text.Quoted.quote message})"

/-! ## Class files -/

/-- What is printed about a class file. -/
def classLines (h : ClassHeader) : List String :=
  [s!"class {h.name.text} (version {h.major}.{h.minor})",
   s!"  flags: {classFlags.describe h.flags}"] ++
  (h.superclass.map fun c => s!"  extends {c.text}").toList ++
  h.interfaces.map fun c => s!"  implements {c.text}"

/-- Reads the header of a class file and describes it. -/
def inspectClass (bytes : List UInt8) : Report :=
  match ClassHeader.parse bytes with
  | .ok header => ⟨classLines header, none⟩
  | .error e => ⟨[], some (.header e)⟩

/-! ## Snapshots -/

/-- A value in a few words. -/
def describeValue (m : Machine) (v : Value) : Except ToolError String :=
  match v with
  | .ref r =>
    match m.object? r with
    | none => .error (.notOnHeap r)
    | some (.string s) => .ok (Text.Quoted.quote s)
    | some (.array type values) => .ok s!"{type.render} of length {values.size}"
    | some o => .ok o.type.render
  | v =>
    match m.render v with
    | .ok text => .ok text
    | .error _ => .ok ""

/-- The objects of saved data; the continuation is not looked at. -/
def describeObjects (m : Machine) (d : SavedData Value) : Except ToolError (List String) :=
  d.objects.zipIdx.mapM fun (v, index) =>
    if d.handles.contains index then .ok "<continuation>" else describeValue m v

/-- What is printed about saved values. -/
def dataLines (m : Machine) (label : String) (d : SavedData Value) :
    Except ToolError (List String) := do
  if d.isEmpty then return []
  let objects ← describeObjects m d
  let ints := describeList (fun n => toString n.toInt) d.ints
  let longs := describeList (fun n => toString n.toInt) d.longs
  let floats := describeList describeFloat d.floats
  let doubles := describeList describeDouble d.doubles
  let listed := ", ".intercalate objects
  let numbers := s!"ints {ints}, longs {longs}, floats {floats}, doubles {doubles}"
  return [s!"      {label}: {numbers}, objects [{listed}]"]

/-- What is printed about saved monitors. -/
def monitorLines (m : Machine) (f : SavedFrame Value) : Except ToolError (List String) := do
  if f.monitors.isEmpty then return []
  let monitors := ", ".intercalate (← f.monitors.mapM (describeValue m))
  return [s!"      monitors: {monitors}"]

/-- A frame under a heading: the number of the frame, or an arrow for a further version of it. -/
def frameReport (m : Machine) (heading : String) (f : SavedFrame Value) : Report :=
  [Report.ofResult (monitorLines m f),
   .ofResult (dataLines m "locals" f.locals),
   .ofResult (dataLines m "stack" f.stack)].foldl Report.append
    ⟨[s!"{heading} {f.key.render}"], none⟩

/-- All versions of a frame. -/
def versionsReport (m : Machine) (index : Nat) (v : VersionedFrame Value) : Report :=
  (v.representations.zipIdx.map fun (f, version) =>
    frameReport m (if version = 0 then s!"#{index}" else "  ->") f).foldl Report.append ⟨[], none⟩

/-- What is printed about a snapshot. -/
def snapshotReport (m : Machine) (s : Snapshot Value) : Report :=
  let payload := Report.ofResult do
    let described ← describeValue m s.payload
    return [s!"coroutine {described}"]
  let count : Report := ⟨[s!"{s.frames.length} frames (outermost first)"], none⟩
  let frames := s.frames.zipIdx.map fun (v, index) => versionsReport m index v
  (count :: frames).foldl Report.append payload

/-- Reads a snapshot and describes it. -/
def inspectSnapshot (bytes : List UInt8) : Report :=
  let (handle, m) := Machine.new.alloc (.continuation .empty)
  match m.readSnapshot handle bytes with
  | .error e => ⟨[], some (.snapshot e)⟩
  | .ok (s, m, _) => snapshotReport m s

/-- Describes a snapshot or a class file; the first four bytes tell them apart. -/
def inspect (bytes : List UInt8) : Report :=
  if bytes.take 4 = Bytes.ofNat 4 Snapshot.magic then inspectSnapshot bytes
  else inspectClass bytes

/-! ## Super types -/

/-- The class and its superclasses; the walk stops where a class comes up again. Each step adds a
known class to those seen, so one step more than there are classes is enough. -/
def superclasses (h : Hierarchy) : (steps : Nat) → (seen : List ClassName) → Option ClassName →
    Except ToolError (List TypeInfo)
  | 0, _, _ => .ok []
  | _, _, none => .ok []
  | steps + 1, seen, some name =>
    if seen.contains name then .ok []
    else
      match h.lookup name with
      | none => .error (.missingClass name)
      | some info => do return info :: (← superclasses h steps (name :: seen) info.superclass)

/-- A number of spaces. -/
def spaces (n : Nat) : String := String.ofList (List.replicate n ' ')

/-- A type and its interfaces, two spaces further in for each superclass passed. -/
def typeLines (info : TypeInfo) (depth : Nat) : List String :=
  let kind := if info.isInterface then "interface" else "class"
  s!"{spaces (2 * depth)}{kind} {info.name.text}" ::
    info.interfaces.map fun c => s!"{spaces (2 * depth + 2)}implements {c.text}"

/-- What is printed about a type: the classes above it, each one a step further in. -/
def superTypes (h : Hierarchy) (name : ClassName) : Report :=
  .ofResult do
    let chain ← superclasses h (h.types.length + 2) [] (some name)
    return chain.zipIdx.flatMap fun (info, depth) => typeLines info depth

/-- One class: where it was found, and its super types. -/
def classReport (classpath : Classpath) (text : String) : Report :=
  match ClassName.ofString text with
  | .error e => ⟨[], some (.badClassName text e)⟩
  | .ok name =>
    let origin := (classpath.origin? name).map fun path => s!"{name.text} (from {path})"
    Report.append ⟨origin.toList, none⟩
      (superTypes (classpath.hierarchy.orElse Library.hierarchy) name)

/-- What is printed about some types, one after the other. -/
def hierarchyReport (classpath : Classpath) (classes : List String) : Report :=
  (classes.map (classReport classpath)).foldl Report.append ⟨[], none⟩

end Resumption.Tool
