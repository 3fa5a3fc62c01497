import Chiptune.CommandLine.Run
import Chiptune.Plugin.Builtin

/-!
# The program

Finds tunes in the files and directories that its arguments name.
-/

open Chiptune

/-- The paths of all files below `path` in the file system. -/
partial def pathsBelow (path : String) : IO (List String) := do
  let place := (← IO.currentDir) / path
  if !(← place.isDir) then return [path]
  let entries ← place.readDir
  let names := (entries.map (·.fileName)).toList.mergeSort
  return (← names.mapM fun name => pathsBelow (joinPath path name)).flatten

/-- Access to the file system. -/
def fileSystem : Files IO where
  below path := do
    match ← (pathsBelow path).toBaseIO with
    | .ok paths => return paths
    | .error _ => return []
  load path := do return (← (IO.FS.readBinFile path).toBaseIO).toOption

/-- Run the program. -/
def main (arguments : List String) : IO UInt32 := do
  let outcome ← CommandLine.run .builtin fileSystem arguments
  IO.print outcome.output
  match outcome with
  | .failed failure => IO.eprintln failure.message
  | .misused => IO.eprintln "wrong arguments"
  | .printed _ => pure ()
  return outcome.code
