import Chiptune.Pattern.Parser

namespace Chiptune.Pattern.Grammar

/-!
# The grammar of the pattern language

Which bytes are pattern text, and what they stand for.

* `Simple`, `Conjunction`, `Alternation` — the condition on one position;
* `Count`, `Quantifier` — how often something stands;
* `Derives` — items, and sequences of them, with the classes that they unroll to.

A word of the language does not say how it is read: there are no cursors here, and no limits on
counts and lengths.
-/

/-! ### Characters -/

/-- The byte of an ASCII character. -/
abbrev byte (c : Char) : UInt8 := c.toUInt8

/-- Blank, tab, line feed, form feed and carriage return. -/
def spaces : List UInt8 := [0x20, 0x09, 0x0a, 0x0c, 0x0d]

/-- Any amount of white space. -/
def Space (t : List UInt8) : Prop := ∀ b ∈ t, b ∈ spaces

/-- The decimal digits. -/
def digits : List UInt8 := Window.ascii "0123456789"

/-- The marks for a nibble, each with the value and the mask it stands for. -/
def nibbles : List (UInt8 × UInt8 × UInt8) :=
  (Window.ascii "0123456789abcdef").zipIdx.map (fun e => (e.1, UInt8.ofNat e.2, 0x0f)) ++
  (Window.ascii "ABCDEF").zipIdx.map (fun e => (e.1, UInt8.ofNat (e.2 + 10), 0x0f)) ++
  (Window.ascii "xX").map (fun b => (b, 0, 0))

/-- The marks for a bit, each with the value and the mask it stands for. -/
def marks : List (UInt8 × UInt8 × UInt8) :=
  [(byte '0', 0, 1), (byte '1', 1, 1), (byte 'x', 0, 0), (byte 'X', 0, 0)]

/-! ### Conditions -/

/-- Two nibbles, with the value and the mask of the byte. -/
inductive Byte : List UInt8 → UInt8 → UInt8 → Prop where
  | nibbles {b b' high low highMask lowMask : UInt8} : (b, high, highMask) ∈ nibbles →
      (b', low, lowMask) ∈ nibbles →
      Byte [b, b'] (high <<< 4 ||| low) (highMask <<< 4 ||| lowMask)

/-- So many bits, behind those that `value` and `mask` hold already. -/
inductive Bits : Nat → (value mask : UInt8) → List UInt8 → ByteClass → Prop where
  | none {value mask : UInt8} : Bits 0 value mask [] (.ofMask value mask)
  | mark {count : Nat} {value mask b bit bitMask : UInt8} {t : List UInt8} {c : ByteClass} :
      (b, bit, bitMask) ∈ marks →
      Bits count (value <<< 1 ||| bit) (mask <<< 1 ||| bitMask) t c →
      Bits (count + 1) value mask (b :: t) c

/-- The condition on one position, without operators. -/
inductive Simple : List UInt8 → ByteClass → Prop where
  | any : Simple [byte '?'] .any
  | bits {t : List UInt8} {c : ByteClass} : Bits 8 0 0 t c → Simple (byte '%' :: t) c
  | quote {b : UInt8} : b < 0x80 → Simple [byte '\'', b] (.exact b)
  | byte {t : List UInt8} {value mask : UInt8} : Byte t value mask →
      Simple t (.ofMask value mask)
  | range {t t' : List UInt8} {low high : UInt8} : Byte t low 0xff → Byte t' high 0xff →
      low ≤ high → Simple (t ++ Grammar.byte '-' :: t') (.range low high)

/-- One or more parts with an operator between them. White space may stand around the operator. -/
inductive Linked (op : UInt8) (Part : List UInt8 → ByteClass → Prop) :
    List UInt8 → List ByteClass → Prop where
  | last {t : List UInt8} {c : ByteClass} : Part t c → Linked op Part t [c]
  | more {t s s' t' : List UInt8} {c : ByteClass} {cs : List ByteClass} : Part t c → Space s →
      Space s' → Linked op Part t' cs → Linked op Part (t ++ (s ++ op :: (s' ++ t'))) (c :: cs)

/-- Simple conditions with `&` between them. -/
def Conjunction (t : List UInt8) (c : ByteClass) : Prop :=
  ∃ members, Linked (byte '&') Simple t members ∧ c = combine .allOf members

/-- Conjunctions with `|` between them. -/
def Alternation (t : List UInt8) (c : ByteClass) : Prop :=
  ∃ members, Linked (byte '|') Conjunction t members ∧ c = combine .anyOf members

/-! ### Repetition -/

/-- The number that decimal digits denote. -/
def value (t : List UInt8) : Nat := t.foldl (fun n b => 10 * n + (b.toNat - (byte '0').toNat)) 0

/-- A positive decimal number of any length. -/
structure Count (t : List UInt8) (n : Nat) : Prop where
  nonempty : t ≠ []
  digits : ∀ b ∈ t, b ∈ digits
  value : value t = n
  positive : 0 < n

/-- How often what stands before it stands: once, or as often as the number in braces says. White
    space may stand before the braces. -/
inductive Quantifier : List UInt8 → Nat → Prop where
  | once : Quantifier [] 1
  | times {s t : List UInt8} {n : Nat} : Space s → Count t n →
      Quantifier (s ++ byte '\x7b' :: (t ++ [byte '\x7d'])) n

/-! ### Sequences -/

/-- The kinds of text with more than one position. -/
inductive Phrase where
  | item
  | items
  | sequence

/-- What may stand at the ends of a sequence: white space in a padded one, otherwise nothing. -/
structure Padding (padded : Bool) (s : List UInt8) : Prop where
  space : Space s
  empty : padded = false → s = []

/-- Text of some kind, and the classes that it unrolls to. Items are conditions and groups, either
    with a quantifier, and numbers of bytes to skip. A sequence is one item or more, with any white
    space between them. -/
inductive Derives (padded : Bool) : Phrase → List UInt8 → List ByteClass → Prop where
  | condition {t q : List UInt8} {c : ByteClass} {n : Nat} : Alternation t c → Quantifier q n →
      Derives padded .item (t ++ q) (List.replicate n c)
  | group {t q : List UInt8} {cs : List ByteClass} {n : Nat} : Derives padded .sequence t cs →
      Quantifier q n →
      Derives padded .item (byte '(' :: (t ++ byte ')' :: q)) (List.replicate n cs).flatten
  | skip {t : List UInt8} {n : Nat} : Count t n →
      Derives padded .item (byte '+' :: (t ++ [byte '+'])) (List.replicate n .any)
  | last {t : List UInt8} {cs : List ByteClass} : Derives padded .item t cs →
      Derives padded .items t cs
  | more {t s t' : List UInt8} {cs cs' : List ByteClass} : Derives padded .item t cs → Space s →
      Derives padded .items t' cs' → Derives padded .items (t ++ (s ++ t')) (cs ++ cs')
  | sequence {s t s' : List UInt8} {cs : List ByteClass} : Padding padded s →
      Derives padded .items t cs → Padding padded s' →
      Derives padded .sequence (s ++ (t ++ s')) cs

end Chiptune.Pattern.Grammar
