import Resumption.Tool.Command
import Resumption.Tool.Report

/-!
# Running a command

A command reads files, makes a report and prints it. How files are read is left open (`Files`):
the program reads them from disk, and a `FileTree` stands for a working directory that is known
beforehand.
-/

namespace Resumption.Tool

/-- How files are read. -/
structure Files (m : Type → Type) where
  /-- the content of a file, `none` if it cannot be read -/
  read : String → m (Option (List UInt8))
  /-- the files under a path, or the file itself, `none` if there is nothing -/
  walk : String → m (Option (List PathFile))

/-- What the program leaves behind. -/
structure Outcome where
  /-- the exit code -/
  code : Nat
  /-- what is printed -/
  stdout : String
  /-- absent if the command line was not understood -/
  stderr : Option String
deriving DecidableEq, Repr

/-- The outcome of a report. -/
def Report.outcome (r : Report) : Outcome :=
  let stdout := String.join (r.lines.map (· ++ "\n"))
  match r.error with
  | none => { code := 0, stdout, stderr := some "" }
  | some .unreadable =>
    { code := 1, stdout, stderr := some s!"Error: {ToolError.unreadable.describe}" }
  | some e => { code := 1, stdout, stderr := some s!"Error: {e.describe}\n" }

/-- Searches class paths, in order; nothing if one cannot be read. -/
def scanAll {m : Type → Type} [Monad m] (files : Files m) :
    List String → m (Option (List (String × List PathFile)))
  | [] => return some []
  | directory :: rest => do
    match ← files.walk directory with
    | none => return none
    | some found =>
      match ← scanAll files rest with
      | none => return none
      | some others => return some ((directory, found) :: others)

/-- Carries out a command line. -/
def run {m : Type → Type} [Monad m] (files : Files m) (arguments : List String) : m Outcome := do
  match Command.parse arguments with
  | none => return { code := 2, stdout := "", stderr := none }
  | some (.show text) => return { code := 0, stdout := text, stderr := some "" }
  | some (.inspect file) =>
    match ← files.read file with
    | none => return Report.outcome ⟨[], some .unreadable⟩
    | some bytes => return (inspect bytes).outcome
  | some (.hierarchy classpath classes) =>
    match ← scanAll files classpath with
    | none => return Report.outcome ⟨[], some .unreadable⟩
    | some directories => return (hierarchyReport (.scan directories) classes).outcome

/-! ## A working directory that is known beforehand -/

/-- The files of a working directory, each with the components of its path. -/
abbrev FileTree := List PathFile

namespace FileTree

variable (tree : FileTree)

/-- Is there a directory with these components? The working directory has none. -/
def isDirectory (components : List String) : Bool :=
  components.isEmpty ||
    tree.any fun file => components.isPrefixOf file.path && components ≠ file.path

/-- The components that a path leads to, from the working directory; `none` if it leads out of it,
or back out of something that is no directory. -/
def normalize (done : List String) : List String → Option (List String)
  | [] => some done
  | "" :: rest | "." :: rest => if isDirectory tree done then normalize done rest else none
  | ".." :: rest =>
    if done.isEmpty || !isDirectory tree done then none else normalize done.dropLast rest
  | name :: rest => normalize (done ++ [name]) rest

/-- The components of a path, `none` if it is empty or absolute. -/
def resolve (path : String) : Option (List String) :=
  if path.isEmpty || path.startsWith "/" then none else normalize tree [] (path.splitOn "/")

/-- The content of a file. -/
def content? (path : String) : Option (List UInt8) := do
  let components ← resolve tree path
  (tree.find? (·.path = components)).map (·.content)

/-- The files under a path. -/
def under? (path : String) : Option (List PathFile) := do
  let components ← resolve tree path
  match tree.find? (·.path = components) with
  | some file => some [⟨[], file.content⟩]
  | none =>
    if isDirectory tree components then
      some (tree.filterMap fun file =>
        if components.isPrefixOf file.path then
          some { file with path := file.path.drop components.length }
        else none)
    else none

/-- The files under a tree. -/
def files : Files Id := ⟨fun path => content? tree path, fun path => under? tree path⟩

end FileTree

end Resumption.Tool
