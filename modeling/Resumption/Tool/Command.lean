/-!
# The command line

Two commands: `inspect` describes a file, `hierarchy` prints super types. Options may stand between
the other arguments, and after `--` there are none.
-/

namespace Resumption.Tool

/-- What the command line asks for. -/
inductive Command where
  /-- describes a file -/
  | inspect (file : String)
  /-- prints super types -/
  | hierarchy (classpath classes : List String)
  /-- prints a text -/
  | show (text : String)
deriving DecidableEq, Repr

namespace Command

/-- Lines of text, each ended. -/
def textOf (lines : List String) : String := String.join (lines.map (· ++ "\n"))

/-- What `--version` prints. -/
def versionText : String := textOf ["Coroutine snapshot tools 0.1.0"]

/-- What `--help` prints. -/
def helpText : String := textOf [
  "Inspect coroutine snapshots and the type hierarchy of class files",
  "",
  "Usage: coroutines <COMMAND>",
  "",
  "Commands:",
  "  inspect    Describe a snapshot or the header of a class file",
  "  hierarchy  Print the super types of classes found on a classpath",
  "  help       Print this message or the help of the given subcommand(s)",
  "",
  "Options:",
  "  -h, --help     Print help",
  "  -V, --version  Print version"]

/-- Help on the command that describes files. -/
def inspectHelp : String := textOf [
  "Describe a snapshot or the header of a class file",
  "",
  "Usage: coroutines inspect <FILE>",
  "",
  "Arguments:",
  "  <FILE>  Snapshot or class file to read",
  "",
  "Options:",
  "  -h, --help  Print help"]

/-- Help on the command that prints super types. -/
def hierarchyHelp : String := textOf [
  "Print the super types of classes found on a classpath",
  "",
  "Usage: coroutines hierarchy [OPTIONS] <CLASS>...",
  "",
  "Arguments:",
  "  <CLASS>...  Binary class names (eg. `java/lang/String`)",
  "",
  "Options:",
  "      --classpath <DIR>  Directory of class files (can be repeated, earlier wins)",
  "  -h, --help             Print help"]

/-- Help on the command that prints help. -/
def helpHelp : String := textOf [
  "Print this message or the help of the given subcommand(s)",
  "",
  "Usage: coroutines help [COMMAND]...",
  "",
  "Arguments:",
  "  [COMMAND]...  Print help for the subcommand(s)"]

/-- Does the argument look like an option? -/
def isOption (argument : String) : Bool := argument.startsWith "-" && argument != "-"

/-- Does the argument ask for help? -/
def asksHelp (argument : String) : Bool :=
  argument = "--help" || argument.startsWith "-h"

/-- The arguments of `inspect`: one file. -/
def parseInspect (files : List String) : List String → Option Command
  | [] =>
    match files with
    | [file] => some (.inspect file)
    | _ => none
  | argument :: rest =>
    if argument = "--" then
      match files ++ rest with
      | [file] => some (.inspect file)
      | _ => none
    else if asksHelp argument then some (.show inspectHelp)
    else if isOption argument || !files.isEmpty then none
    else parseInspect [argument] rest

/-- The command with what was collected; there has to be a class. -/
def hierarchyOf (classpath classes : List String) : Option Command :=
  if classes.isEmpty then none else some (.hierarchy classpath classes)

/-- The arguments of `hierarchy`: class paths and classes, in order. -/
def parseHierarchy (classpath classes : List String) : List String → Option Command
  | [] => hierarchyOf classpath classes
  | "--classpath" :: directory :: rest =>
    if isOption directory then none else parseHierarchy (classpath ++ [directory]) classes rest
  | argument :: rest =>
    if argument = "--" then hierarchyOf classpath (classes ++ rest)
    else if asksHelp argument then some (.show hierarchyHelp)
    else if argument.startsWith "--classpath=" then
      parseHierarchy (classpath ++ [String.ofList (argument.toList.drop 12)]) classes rest
    else if isOption argument then none
    else parseHierarchy classpath (classes ++ [argument]) rest

/-- What the command line asks for, `none` if it cannot be understood. -/
def parse : List String → Option Command
  | "inspect" :: rest => parseInspect [] rest
  | "hierarchy" :: rest => parseHierarchy [] [] rest
  | ["help"] => some (.show helpText)
  | ["help", "help"] => some (.show helpHelp)
  | ["help", "inspect"] => some (.show inspectHelp)
  | ["help", "hierarchy"] => some (.show hierarchyHelp)
  | argument :: _ =>
    if asksHelp argument then some (.show helpText)
    else if argument = "--version" || argument.startsWith "-V" then some (.show versionText)
    else none
  | [] => none

end Command

end Resumption.Tool
