namespace Chiptune

/-!
# Comma-separated values

A row is a line of fields with commas between them. A field that holds a comma, a quote or a line
break is put in quotes, and quotes in it are written twice.
-/

namespace Csv

/-- Whether a field with the character has to be quoted. -/
def isSpecial (c : Char) : Bool := c == ',' || c == '"' || c == '\n' || c == '\r'

/-- The text of a field. -/
def field (text : String) : String :=
  let body := text.toList
  if body.any isSpecial then
    String.ofList ('"' :: body.flatMap (fun c => if c == '"' then ['"', '"'] else [c]) ++ ['"'])
  else text

/-- The line of a row. -/
def row (fields : List String) : String := ",".intercalate (fields.map field) ++ "\n"

/-- The lines of a table, beginning with the names of the columns. An empty table has no lines. -/
def table (columns : List String) (rows : List (List String)) : String :=
  if rows.isEmpty then "" else String.join ((columns :: rows).map row)

end Csv

end Chiptune
