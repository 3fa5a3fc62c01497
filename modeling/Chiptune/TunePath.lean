namespace Chiptune

/-!
# Paths inside containers

A `TunePath` says where a tune lies inside nested containers: a list of components and the
character that separates them in text. Components are never empty and never hold the separator,
since every operation splits the text it is given.

* `TunePath.parse`, `TunePath.render` — from and to text;
* `TunePath.append`, `TunePath.parent` — one step inwards or outwards;
* `TunePath.extract?`, `TunePath.startsWith` — leading parts, compared component by component.
-/

/-- Components joined by a separator. The empty path is written as the empty text. -/
structure TunePath where
  components : List String
  separator : Char
deriving DecidableEq, Repr

namespace TunePath

/-- The separator where none is chosen. -/
def defaultSeparator : Char := '/'

/-- The parts of `text` between separators, without the empty ones. -/
def split (separator : Char) (text : String) : List String :=
  ((text.toList.splitOn separator).filter (fun part => !part.isEmpty)).map String.ofList

/-- The path without components. -/
def empty (separator : Char) : TunePath := ⟨[], separator⟩

/-- The path that `text` denotes. -/
def parse (separator : Char) (text : String) : TunePath := ⟨split separator text, separator⟩

/-- The path with the components of `text` added at the end. -/
def append (p : TunePath) (text : String) : TunePath :=
  { p with components := p.components ++ split p.separator text }

/-- What remains of the path behind the components of `text`, when it starts with them. -/
def extract? (p : TunePath) (text : String) : Option TunePath :=
  let lead := split p.separator text
  if lead.isPrefixOf p.components then
    some { p with components := p.components.drop lead.length }
  else none

/-- Whether the components of `q` lead those of `p`. The separators play no part. -/
def startsWith (p q : TunePath) : Bool := q.components.isPrefixOf p.components

/-- The components with separators between them. -/
def render (p : TunePath) : String := (String.singleton p.separator).intercalate p.components

/-- The first component. -/
def first? (p : TunePath) : Option String := p.components.head?

/-- The path without its last component. The empty path is its own parent. -/
def parent (p : TunePath) : TunePath := { p with components := p.components.dropLast }

/-- Whether the path has no components. -/
def isEmpty (p : TunePath) : Bool := p.components.isEmpty

end TunePath

end Chiptune
