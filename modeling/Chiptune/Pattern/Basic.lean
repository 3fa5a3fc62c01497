import Chiptune.Bytes.Window
import Chiptune.Pattern.ByteClass

namespace Chiptune

/-!
# Patterns

A `Pattern` gives one `ByteClass` for each of a fixed number of byte positions.

* `Pattern.matchesAt` — whether the bytes from an offset on meet the classes;
* `Pattern.search` — the least offset where they do;
* `Pattern.render` — the pattern in the language that the compiler reads.
-/

/-- The classes of the bytes that a match begins with. There is one at least. -/
structure Pattern where
  classes : List ByteClass
  nonempty : classes ≠ [] := by decide
deriving DecidableEq

namespace Pattern

/-- The classes that accept exactly the characters of an ASCII text. -/
def literal (text : String) : List ByteClass :=
  (Window.ascii text).map ByteClass.exact

/-- The number of positions. -/
def length (p : Pattern) : Nat := p.classes.length

/-- Whether the bytes from `offset` on are there and meet the classes one by one. -/
def meets (w : Window) (offset : Nat) : List ByteClass → Bool
  | [] => true
  | c :: rest =>
    match w[offset]? with
    | some b => c.accepts b && meets w (offset + 1) rest
    | none => false

/-- Whether the pattern matches at `offset`. -/
def matchesAt (p : Pattern) (w : Window) (offset : Nat) : Bool := meets w offset p.classes

/-- Whether the pattern matches at the start. -/
def matchesStart (p : Pattern) (w : Window) : Bool := p.matchesAt w 0

/-- The first offset from `start` on, below `stop`, where the pattern matches, tried one by one. -/
def scan (p : Pattern) (w : Window) (stop start : Nat) : Option Nat :=
  if start < stop then
    if p.matchesAt w start then some start else p.scan w stop (start + 1)
  else none
termination_by stop - start

/-- The same for a pattern whose first position is the byte `lead`: only the offsets where that
    byte stands are tried. -/
def scanFor (p : Pattern) (lead : UInt8) (w : Window) (stop start : Nat) : Option Nat :=
  let candidate := w.firstIndex lead stop start
  if h : start < stop ∧ candidate < stop then
    if p.matchesAt w candidate then some candidate
    else
      have : start ≤ candidate := w.le_firstIndex lead stop start (by omega)
      p.scanFor lead w stop (candidate + 1)
  else none
termination_by stop - start

/-- The least offset where the pattern matches, or the size of the window when there is none. -/
def search (p : Pattern) (w : Window) : Nat :=
  if w.size < p.length then w.size
  else
    let stop := w.size - p.length + 1
    let found := match p.classes.head?.bind ByteClass.exactValue? with
      | some lead => p.scanFor lead w stop 0
      | none => p.scan w stop 0
    found.getD w.size

/-- The pattern as text, positions separated by blanks. -/
def render (p : Pattern) : String := " ".intercalate (p.classes.map ByteClass.render)

end Pattern

end Chiptune
