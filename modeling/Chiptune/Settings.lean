import Chiptune.Json.Parser
import Chiptune.Json.Printer
import Chiptune.Location
import Chiptune.TunePath

namespace Chiptune

/-!
# Settings of a scan

`Settings` bound a scan and choose the order of plugins. They are kept as a JSON object in which
every field may be missing; `Settings.parse` also takes an array of the values of the first fields.
-/

/-- How deep and how far a scan goes. The limits are 64-bit words. -/
structure Settings where
  /-- The deepest nesting of containers that is still opened. -/
  maxDepth : UInt64 := 16
  /-- The most bytes that packed data may unpack to. -/
  maxDecodedSize : UInt64 := 16 * 1024 * 1024
  /-- Whether tunes are looked for at every offset, not only at the start of each container. -/
  scanRaw : Bool := true
  /-- The separator of path components. -/
  pathSeparator : Char := TunePath.defaultSeparator
  /-- The plugins to try first. All others follow in their usual order. -/
  pluginOrder : List String := []
deriving DecidableEq

/-- Why settings are not accepted. -/
inductive SettingsError where
  /-- The text is no JSON value of the right form. -/
  | malformed
  /-- Containers have to be opened to a depth of one at least. -/
  | zeroDepth
  /-- The separator is the mark between a file and the path inside. -/
  | reservedSeparator
  /-- Two plugins have one name. -/
  | duplicatePlugin (id : String)
  /-- Any other reason. -/
  | other (reason : String)
deriving DecidableEq

/-- The reason in words. -/
def SettingsError.message : SettingsError → String
  | malformed => "malformed JSON"
  | zeroDepth => "max_depth must be at least 1"
  | reservedSeparator => s!"path_separator cannot be '{Location.delimiter}'"
  | duplicatePlugin id => s!"duplicate plugin id '{id}'"
  | other reason => reason

namespace Settings

/-- The names of the fields, in the order of the array form. -/
def fieldNames : List String :=
  ["max_depth", "max_decoded_size", "scan_raw", "path_separator", "plugin_order"]

/-! ### Values of fields -/

/-- A 64-bit word. -/
def word? : Json → Option UInt64
  | .integer n => if 0 ≤ n ∧ n < UInt64.size then some (UInt64.ofNat n.toNat) else none
  | _ => none

/-- A text of exactly one character. -/
def char? : Json → Option Char
  | .text value =>
    match value.toList with
    | [c] => some c
    | _ => none
  | _ => none

/-- A text. -/
def text? : Json → Option String
  | .text value => some value
  | _ => none

/-- The settings with one field changed. -/
def setField? (s : Settings) (name : String) (value : Json) : Option Settings :=
  match name, value with
  | "max_depth", v => do return { s with maxDepth := ← word? v }
  | "max_decoded_size", v => do return { s with maxDecodedSize := ← word? v }
  | "scan_raw", .bool b => some { s with scanRaw := b }
  | "path_separator", v => do return { s with pathSeparator := ← char? v }
  | "plugin_order", .array items => do return { s with pluginOrder := ← items.mapM text? }
  | _, _ => none

/-- The settings that the fields change from their defaults. -/
def ofFields? (fields : List (String × Json)) : Option Settings :=
  fields.foldlM (fun s e => s.setField? e.1 e.2) {}

/-- The settings that a JSON value denotes: an object without unknown or repeated fields, or an
    array of the values of the first fields. All other fields keep their defaults. -/
def ofJson? : Json → Option Settings
  | .object fields => if (fields.map (·.1)).Nodup then ofFields? fields else none
  | .array items =>
    if items.length ≤ fieldNames.length then ofFields? (fieldNames.zip items) else none
  | _ => none

/-- The settings as an object. -/
def toJson (s : Settings) : Json :=
  .object
    [("max_depth", .integer s.maxDepth.toNat),
     ("max_decoded_size", .integer s.maxDecodedSize.toNat),
     ("scan_raw", .bool s.scanRaw),
     ("path_separator", .text (String.singleton s.pathSeparator)),
     ("plugin_order", .array (s.pluginOrder.map .text))]

/-! ### Text -/

/-- The settings, unless they cannot be used. -/
def validate (s : Settings) : Except SettingsError Settings :=
  if s.maxDepth = 0 then .error .zeroDepth
  else if s.pathSeparator = Location.delimiter then .error .reservedSeparator
  else .ok s

/-- The settings that `text` denotes. -/
def parse (text : String) : Except SettingsError Settings :=
  match (Json.parse? text).bind ofJson? with
  | some s => s.validate
  | none => .error .malformed

/-- The settings as JSON text. -/
def render (s : Settings) : String := s.toJson.compact

end Settings

end Chiptune
