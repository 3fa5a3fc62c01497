import Chiptune.Json.Parser
import Chiptune.Json.Printer
import Chiptune.Properties

namespace Chiptune

/-!
# Properties as JSON

A set of properties is an object whose fields are integers and texts. The kind of a value is that
of the JSON value, so texts that look like numbers stay texts.
-/

namespace Property

/-- The value in JSON. -/
def toJson : Property → Json
  | .integer value => .integer value.toInt
  | .text value => .text value

/-- The value that a JSON integer in the 64-bit range or a JSON text denotes. -/
def ofJson? : Json → Option Property
  | .integer n =>
    if Int64.minValue.toInt ≤ n ∧ n ≤ Int64.maxValue.toInt then some (.integer (Int64.ofInt n))
    else none
  | .text value => some (.text value)
  | _ => none

end Property

namespace Properties

/-- The set as an object, names in ascending order. -/
def toJson (p : Properties) : Json := .object (p.entries.map fun e => (e.1, e.2.toJson))

/-- The set that an object denotes. Of fields with one name the last counts. -/
def ofJson? : Json → Option Properties
  | .object fields =>
    fields.foldlM (fun p e => do return p.set e.1 (← Property.ofJson? e.2)) ∅
  | _ => none

/-- The set that `text` denotes. -/
def parse? (text : String) : Option Properties := (Json.parse? text).bind ofJson?

/-- The set as JSON text. -/
def render (p : Properties) : String := p.toJson.compact

end Properties

end Chiptune
