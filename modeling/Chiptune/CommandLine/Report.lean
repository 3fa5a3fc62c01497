import Chiptune.CommandLine.Arguments
import Chiptune.Decimal.Shortest
import Chiptune.Json.Properties
import Chiptune.Plugin.Catalog
import Chiptune.Scan.Record
import Chiptune.Text.Csv

namespace Chiptune

/-!
# Reports

A `Report` is what the command line prints of a tune: a line of text, a JSON object or a row of
comma-separated values.
-/

/-- What is printed of a tune. -/
structure Report where
  file : String
  subpath : String
  plugin : String
  duration : Option Float32
  properties : Properties

namespace Report

/-- The report of a tune that was found in a file. -/
def ofRecord (file : String) (r : Record) : Report :=
  ⟨file, r.path.render, r.plugin, r.tune.info.duration, r.properties⟩

/-- A text of the report, which may be missing. -/
def text (r : Report) (name : String) : String := (r.properties.text? name).getD ""

/-- The file together with the path inside. -/
def location (r : Report) : String :=
  if r.subpath.isEmpty then r.file else r.file ++ "?" ++ r.subpath

/-! ### Durations -/

/-- Minutes and seconds, rounded to the nearest second. -/
def clock (seconds : Float32) : String :=
  let total := seconds.round.toUInt64.toNat
  s!"{total / 60}:{Numeral.decimal 2 (total % 60)}"

/-- The duration, if it is known. -/
def durationText (r : Report) : String := (r.duration.map clock).getD ""

/-- Durations in JSON have the fewest digits that read back, and an exponent below `0.00001` and
    from ten trillions on. -/
def durationNotation : Notation := ⟨-6, 13⟩

/-! ### Forms of output -/

/-- The line of a report: location, plugin, title, author and duration. -/
def textLine (r : Report) : String :=
  "\t".intercalate
    [r.location, r.plugin, r.text Key.title, r.text Key.author, r.durationText] ++ "\n"

/-- The report as a JSON object. A duration that is not known is left out. -/
def toJson (r : Report) : Json :=
  let duration := r.duration.map fun seconds =>
    ("duration", ((durationNotation.writeSingle? seconds).map Json.real).getD .null)
  .object
    ([("file", .text r.file), ("subpath", .text r.subpath), ("plugin", .text r.plugin)]
      ++ duration.toList ++ [("properties", r.properties.toJson)])

/-- The columns of the table of reports. -/
def columns : List String :=
  ["file", "subpath", "type", "container", "title", "author", "size", "crc", "duration"]

/-- The row of a report. -/
def csvRow (r : Report) : List String :=
  let size := (r.properties.integer? Key.size).getD 0
  let crc := (r.properties.integer? Key.crc).map fun n => Numeral.hex 8 n.toUInt64.toNat
  [r.file, r.subpath, r.plugin, r.text Key.container, r.text Key.title, r.text Key.author,
    toString size.toInt, crc.getD "", r.durationText]

/-- The text of all reports in the given form. -/
def renderAll (format : Format) (reports : List Report) : String :=
  match format with
  | .text => String.join (reports.map textLine)
  | .json => (Json.array (reports.map toJson)).pretty ++ "\n"
  | .csv => Csv.table columns (reports.map csvRow)

end Report

/-! ### Catalogs -/

/-- The text with blanks behind it, up to `width` characters. -/
def padRight (width : Nat) (text : String) : String :=
  text ++ String.ofList (List.replicate (width - text.length) ' ')

/-- The line of a plugin in the listing of a catalog. -/
def Plugin.listing (p : Plugin) : String :=
  s!"{padRight 8 p.id} {padRight 12 p.decoder.kind} {p.description}\n"

/-- The listing of a catalog. -/
def Catalog.listing (c : Catalog) : String := String.join (c.plugins.map Plugin.listing)

end Chiptune
