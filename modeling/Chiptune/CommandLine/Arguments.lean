import Chiptune.Text.Numeral

namespace Chiptune

/-!
# Arguments of the command line

`Arguments.parse?` reads the words of a command line:

* `--name`, `--name value` or `--name=value` for the switches by name;
* `-n value`, `-nvalue` or `-n=value` for those that have a letter;
* any other word is the path of a file or a directory, and so is every word behind `--`.

A switch is given once at most, except those that take lists.
-/

/-- The forms of output. -/
inductive Format where
  | text | json | csv
deriving DecidableEq, Repr

/-- The names of the forms. -/
def Format.named : List (String × Format) := [("text", .text), ("json", .json), ("csv", .csv)]

/-- What a command line asks for. -/
structure Arguments where
  /-- The files and directories to scan. -/
  paths : List String := []
  /-- The file with the settings. -/
  config : Option String := none
  /-- The depth to use in place of that of the settings. -/
  maxDepth : Option UInt64 := none
  /-- Whether tunes are looked for only at the start of containers. -/
  noRawScan : Bool := false
  /-- The plugins to try first. -/
  order : List String := []
  /-- The plugins to leave out. -/
  skip : List String := []
  /-- The form of the output. -/
  format : Option Format := none
  /-- Whether to print the catalog and nothing else. -/
  listPlugins : Bool := false
deriving DecidableEq

namespace Arguments

/-- The switches. -/
inductive Switch where
  | config | maxDepth | noRawScan | order | skip | format | listPlugins
deriving DecidableEq, Repr

/-- The names of the switches. -/
def longNames : List (String × Switch) :=
  [("config", .config), ("max-depth", .maxDepth), ("no-raw-scan", .noRawScan), ("order", .order),
   ("skip", .skip), ("format", .format), ("list-plugins", .listPlugins)]

/-- The letters of switches. -/
def letters : List (Char × Switch) := [('c', .config), ('f', .format)]

/-- The word behind which there are no switches. -/
def endOfSwitches : String := "--"

/-! ### Words -/

/-- What a word is: a path, or a switch with the value attached to it, if any. -/
inductive Word where
  | path (text : String)
  | switch (s : Switch) (value : Option String)

/-- Whether a word can stand by itself: it does not begin with a hyphen or is nothing but one. -/
def isPlain (word : String) : Bool := word == "-" || word.toList.head? != some '-'

/-- What a word is, unless it is a switch that does not exist. -/
def Word.read? (word : String) : Option Word :=
  if isPlain word then some (.path word)
  else match word.toList with
    | '-' :: '-' :: rest =>
      let name := rest.takeWhile (· != '=')
      let value := match rest.dropWhile (· != '=') with
        | _ :: value => some (String.ofList value)
        | [] => none
      (longNames.lookup (String.ofList name)).map (.switch · value)
    | '-' :: letter :: rest =>
      let value := match rest with
        | [] => none
        | '=' :: value => some (String.ofList value)
        | value => some (String.ofList value)
      (letters.lookup letter).map (.switch · value)
    | _ => none

/-! ### Values -/

/-- The arguments with one more path. No path is empty. -/
def addPath? (a : Arguments) (path : String) : Option Arguments :=
  if path.isEmpty then none else some { a with paths := a.paths ++ [path] }

/-- The items of a list, which are separated by commas. -/
def items (value : String) : List String := (value.toList.splitOn ',').map String.ofList

/-- The arguments with a switch that takes no value. Nothing for all other switches. -/
def setFlag? (a : Arguments) : Switch → Option Arguments
  | .noRawScan => if a.noRawScan then none else some { a with noRawScan := true }
  | .listPlugins => if a.listPlugins then none else some { a with listPlugins := true }
  | _ => none

/-- The arguments with the value of a switch. -/
def setValue? (a : Arguments) (s : Switch) (value : String) : Option Arguments :=
  match s with
  | .config =>
    if a.config.isSome || value.isEmpty then none else some { a with config := some value }
  | .maxDepth => do
    let depth ← Numeral.parse? UInt64.size value
    if a.maxDepth.isSome then none else some { a with maxDepth := some (UInt64.ofNat depth) }
  | .order => some { a with order := a.order ++ items value }
  | .skip => some { a with skip := a.skip ++ items value }
  | .format => do
    let format ← Format.named.lookup value
    if a.format.isSome then none else some { a with format := some format }
  | .noRawScan | .listPlugins => none

/-- Whether the switch takes no value. -/
def Switch.isFlag : Switch → Bool
  | .noRawScan | .listPlugins => true
  | _ => false

/-! ### Command lines -/

/-- The arguments after further words. A switch without a value attached takes the next word. -/
def addWords? (a : Arguments) : List String → Option Arguments
  | [] => some a
  | word :: rest =>
    if word = endOfSwitches then rest.foldlM addPath? a
    else match Word.read? word with
      | none => none
      | some (.path path) => do addWords? (← a.addPath? path) rest
      | some (.switch s (some value)) => do addWords? (← a.setValue? s value) rest
      | some (.switch s none) =>
        if s.isFlag then do addWords? (← a.setFlag? s) rest
        else match rest with
          | value :: rest =>
            if isPlain value then do addWords? (← a.setValue? s value) rest else none
          | [] => none

/-- The arguments of a command line. There has to be something to scan, unless the catalog is
    wanted. -/
def parse? (words : List String) : Option Arguments := do
  let a ← addWords? {} words
  if a.paths.isEmpty && !a.listPlugins then none else some a

end Arguments

end Chiptune
