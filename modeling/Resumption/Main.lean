import Resumption.Tool.Run

/-!
# The program

Reads files from disk and carries out a command line.
-/

namespace Resumption.Tool

/-- A file on disk; nothing if it cannot be read. -/
def readDisk (path : String) : IO (Option (List UInt8)) := do
  try
    let content ← IO.FS.readBinFile path
    return some content.toList
  catch _ => return none

/-- The files below an entry of a directory, which has these components. Links are not followed. -/
partial def walkEntry (components : List String) (entry : IO.FS.DirEntry) : IO (List PathFile) := do
  match (← entry.path.symlinkMetadata).type with
  | .file => return [⟨components, (← IO.FS.readBinFile entry.path).toList⟩]
  | .dir =>
    let inside ← entry.path.readDir
    let found ← inside.toList.mapM fun e => walkEntry (components ++ [e.fileName]) e
    return found.flatten
  | _ => return []

/-- The files below a path on disk, or the file itself; nothing if any of it cannot be read. -/
def walkDisk (path : String) : IO (Option (List PathFile)) := do
  try
    let root ← IO.FS.realPath path
    if ← root.isDir then
      let found ← (← root.readDir).toList.mapM fun e => walkEntry [e.fileName] e
      return some found.flatten
    else return some [⟨[], (← IO.FS.readBinFile root).toList⟩]
  catch _ => return none

end Resumption.Tool

open Resumption.Tool in
/-- Runs the command on the files of the disk. -/
def main (arguments : List String) : IO UInt32 := do
  let outcome ← run ⟨readDisk, walkDisk⟩ arguments
  IO.print outcome.stdout
  IO.eprint (outcome.stderr.getD Command.helpText)
  return UInt32.ofNat outcome.code
