namespace Chiptune

/-!
# Locations

A `Location` names data by a file path and, after a question mark, the path of a tune inside the
file: `music/disk.scl?SONG.C/#2`.
-/

/-- A file path and a path inside the file, which is empty for the file itself. -/
structure Location where
  path : String
  subpath : String
deriving DecidableEq, Repr

namespace Location

/-- The mark between the file path and the path inside. -/
def delimiter : Char := '?'

/-- Split `text` at the first delimiter. -/
def parse (text : String) : Location where
  path := String.ofList (text.toList.takeWhile (· != delimiter))
  subpath := String.ofList ((text.toList.dropWhile (· != delimiter)).drop 1)

/-- The same file with another path inside. -/
def withSubpath (l : Location) (subpath : String) : Location := { l with subpath }

/-- The text of the location. The delimiter is left out when nothing follows it. -/
def full (l : Location) : String :=
  if l.subpath.isEmpty then l.path else (l.path.push delimiter) ++ l.subpath

/-- The part of `cs` behind the last character that `p` accepts, or all of `cs`. -/
def behindLast (p : Char → Bool) (cs : List Char) : List Char :=
  (cs.reverse.takeWhile (fun c => !p c)).reverse

/-- The last component of the file path, in the style of either kind of separator. -/
def filename (l : Location) : String :=
  String.ofList (behindLast (fun c => c == '/' || c == '\\') l.path.toList)

/-- The text behind the last dot of the file name. A name that has no dot, or none but at its
    start, has no extension. -/
def extension (l : Location) : String :=
  let name := l.filename.toList
  let tail := behindLast (· == '.') name
  if tail.length + 1 < name.length then String.ofList tail else ""

end Location

end Chiptune
