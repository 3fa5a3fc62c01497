namespace Chiptune

/-!
# Files

The command line works on any `Files`: a way to find the files below a path, and to load them. A
`FileTree` is a directory in memory, and `FileTree.files` gives access to it.
-/

/-- Access to files with effects in `m`. -/
structure Files (m : Type → Type) where
  /-- The path itself, or the paths of all files below it when it is a directory. -/
  below : String → m (List String)
  /-- The bytes of a file, if it can be read. -/
  load : String → m (Option ByteArray)

/-- The path of `name` in the directory `path`. -/
def joinPath (path name : String) : String :=
  if path.toList.getLast? == some '/' then path ++ name else path ++ "/" ++ name

/-- A file or a directory. -/
inductive FileTree where
  | file (bytes : ByteArray)
  | directory (entries : List (String × FileTree))

namespace FileTree

/-- The entry of a directory. -/
def entry? (name : String) : FileTree → Option FileTree
  | file _ => none
  | directory entries => entries.lookup name

/-- Whether the tree is a directory. -/
def isDirectory : FileTree → Bool
  | file _ => false
  | directory _ => true

/-- What is found by going on from `t`, which lies in the directories `parents`. Empty parts and
    single dots stay in a directory, double dots leave it. -/
def walk? (parents : List FileTree) (t : FileTree) : List String → Option FileTree
  | [] => some t
  | part :: rest =>
    if !t.isDirectory then none
    else if part = "" || part = "." then walk? parents t rest
    else if part = ".." then
      match parents with
      | parent :: parents => walk? parents parent rest
      | [] => none
    else do walk? (t :: parents) (← t.entry? part) rest

/-- What is found at a path that begins in `t`. -/
def find? (t : FileTree) (path : String) : Option FileTree :=
  if path.toList.head? == some '/' then none
  else walk? [] t ((path.toList.splitOn '/').map String.ofList)

mutual

/-- The paths of all files in `t`, which is found at `path`. -/
def paths (path : String) : FileTree → List String
  | file _ => [path]
  | directory entries => entryPaths path entries

/-- The paths of all files in the entries of the directory at `path`. -/
def entryPaths (path : String) : List (String × FileTree) → List String
  | [] => []
  | (name, t) :: rest => paths (joinPath path name) t ++ entryPaths path rest

end

/-- Access to the files in a directory. -/
def files (t : FileTree) : Files Id where
  below path :=
    match t.find? path with
    | some found => paths path found
    | none => [path]
  load path :=
    match t.find? path with
    | some (file bytes) => some bytes
    | _ => none

/-! ### Building directories -/

/-- The tree with a file at the given parts of a path below it. -/
def insert (bytes : ByteArray) : (parts : List String) → FileTree → FileTree
  | [], _ => file bytes
  | part :: rest, t =>
    let entries := match t with
      | directory entries => entries
      | file _ => []
    let old := (entries.lookup part).getD (directory [])
    directory (entries.filter (·.1 != part) ++ [(part, insert bytes rest old)])

/-- The directory with the given files, each with its relative path. -/
def ofFiles (files : List (String × ByteArray)) : FileTree :=
  files.foldl (fun t f => t.insert f.2 ((f.1.toList.splitOn '/').map String.ofList)) (directory [])

end FileTree

end Chiptune
