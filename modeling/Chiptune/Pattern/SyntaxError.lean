namespace Chiptune

/-!
# Faults of pattern text

Where pattern text is wrong, and in which way.
-/

namespace SyntaxError

/-- What is wrong. -/
inductive Kind where
  /-- The pattern or a group in it has no positions. -/
  | empty
  /-- A parenthesis has no partner. -/
  | unbalancedGroup
  /-- A count is not a positive decimal number with its closing mark. -/
  | invalidQuantifier
  /-- Neither a hexadecimal digit nor the wildcard. -/
  | invalidNibble
  /-- Neither a binary digit nor the wildcard. -/
  | invalidBit
  /-- The ends of a range hold wildcards or are reversed. -/
  | invalidRange
  /-- Nothing to combine follows an operator. -/
  | danglingOperator
  /-- No condition begins with this character. -/
  | unexpectedCharacter
  /-- The text ends too early. -/
  | unexpectedEnd
  /-- The pattern has more positions than are allowed. -/
  | tooLong
deriving DecidableEq

/-- The fault in words. -/
def Kind.message : Kind → String
  | empty => "empty pattern"
  | unbalancedGroup => "unbalanced group"
  | invalidQuantifier => "invalid quantifier"
  | invalidNibble => "invalid nibble"
  | invalidBit => "invalid bit"
  | invalidRange => "invalid range"
  | danglingOperator => "dangling operator"
  | unexpectedCharacter => "unexpected character"
  | unexpectedEnd => "unexpected end of pattern"
  | tooLong => "pattern too long"

end SyntaxError

/-- A fault and the byte of the text it is found at. -/
structure SyntaxError where
  offset : Nat
  kind : SyntaxError.Kind
deriving DecidableEq

/-- The place and the fault in words. -/
def SyntaxError.message (e : SyntaxError) : String :=
  s!"invalid pattern at offset {e.offset}: {e.kind.message}"

end Chiptune
