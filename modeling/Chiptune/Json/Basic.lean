namespace Chiptune

/-!
# JSON values

The values that settings and reports are made of. Integers are kept apart from other numbers, which
are held as their literal. The fields of an object keep their order and may repeat.
-/

/-- A JSON value. -/
inductive Json where
  | null
  | bool (value : Bool)
  | integer (value : Int)
  | real (literal : String)
  | text (value : String)
  | array (items : List Json)
  | object (fields : List (String × Json))

end Chiptune
