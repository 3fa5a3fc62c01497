import Chiptune.Json.Basic
import Chiptune.Text.Numeral

namespace Chiptune

/-!
# Writing JSON

`Json.compact` writes a value without any white space, `Json.pretty` with one item or field on a
line and two blanks for each level. Quotes, backslashes and control characters are escaped, all
other characters stand for themselves.
-/

namespace Json

/-- The characters that stand for `c` inside quotes. -/
def escape (c : Char) : List Char :=
  match c with
  | '"' => ['\\', '"']
  | '\\' => ['\\', '\\']
  | '\x08' => ['\\', 'b']
  | '\x0c' => ['\\', 'f']
  | '\n' => ['\\', 'n']
  | '\r' => ['\\', 'r']
  | '\t' => ['\\', 't']
  | _ => if c.toNat < 0x20 then '\\' :: 'u' :: (Numeral.hex 4 c.toNat).toList else [c]

/-- The text in quotes. -/
def quote (text : String) : String :=
  String.ofList ('"' :: text.toList.flatMap escape ++ ['"'])

mutual

/-- The value without white space. -/
def compact : Json → String
  | .null => "null"
  | .bool value => toString value
  | .integer value => toString value
  | .real literal => literal
  | .text value => quote value
  | .array items => "[" ++ ",".intercalate (compactItems items) ++ "]"
  | .object fields => "\x7b" ++ ",".intercalate (compactFields fields) ++ "\x7d"

/-- The items without white space. -/
def compactItems : List Json → List String
  | [] => []
  | item :: rest => compact item :: compactItems rest

/-- The fields without white space. -/
def compactFields : List (String × Json) → List String
  | [] => []
  | (name, value) :: rest => (quote name ++ ":" ++ compact value) :: compactFields rest

end

/-- Lines between brackets, indented by one level more than `level`; nothing between the brackets
    when there are no lines. -/
def block (level : Nat) (opening closing : String) (lines : List String) : String :=
  if lines.isEmpty then opening ++ closing
  else
    let margin := String.ofList (List.replicate (2 * level) ' ')
    opening ++ "\n" ++ ",\n".intercalate (lines.map fun line => margin ++ "  " ++ line) ++ "\n"
      ++ margin ++ closing

mutual

/-- The value on several lines, its last line indented by `level` levels. -/
def prettyAt (level : Nat) : Json → String
  | .array items => block level "[" "]" (prettyItems (level + 1) items)
  | .object fields => block level "\x7b" "\x7d" (prettyFields (level + 1) fields)
  | .null => compact .null
  | .bool value => compact (.bool value)
  | .integer value => compact (.integer value)
  | .real literal => compact (.real literal)
  | .text value => compact (.text value)

/-- The items on several lines. -/
def prettyItems (level : Nat) : List Json → List String
  | [] => []
  | item :: rest => prettyAt level item :: prettyItems level rest

/-- The fields on several lines. -/
def prettyFields (level : Nat) : List (String × Json) → List String
  | [] => []
  | (name, value) :: rest =>
    (quote name ++ ": " ++ prettyAt level value) :: prettyFields level rest

end

/-- The value on several lines. -/
def pretty (value : Json) : String := prettyAt 0 value

end Json

end Chiptune
