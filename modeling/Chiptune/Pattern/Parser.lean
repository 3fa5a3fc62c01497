import Chiptune.Pattern.Basic
import Chiptune.Pattern.SyntaxError

namespace Chiptune

open SyntaxError (Kind)

/-!
# Reading patterns

The pattern language describes the bytes at the start of a format, one position after the other,
with white space between positions where the writer likes:

* `?` is any byte, `4e` one byte, `4x` a byte with a free nibble, `%0101xxxx` one with free bits,
  `'Z` an ASCII character and `00-1f` a range of bytes;
* `a&b` and `a|b` combine conditions on one position, `&` before `|`;
* `(...)` groups positions, `{n}` repeats the position or group before it, `+n+` skips `n` bytes.

`Pattern.compile` reads the bytes of the text from left to right and unrolls groups and
repetitions, so the result has one class for each position. Every reading function returns the
text behind what it read, together with the proof that this is shorter.
-/

namespace Pattern

/-- The most positions that a pattern may have. -/
def maxLength : Nat := 0x10000

/-- The unread bytes of the text, and how many were read before them. -/
structure Cursor where
  rest : List UInt8
  offset : Nat

namespace Cursor

/-- The number of unread bytes. -/
def left (c : Cursor) : Nat := c.rest.length

/-- A cursor behind `c`. -/
abbrev After (c : Cursor) : Type := { d : Cursor // d.left < c.left }

/-- A cursor at or behind `c`. -/
abbrev Onward (c : Cursor) : Type := { d : Cursor // d.left ≤ c.left }

/-- The fault `kind` at the cursor. -/
def fault (c : Cursor) (kind : Kind) : SyntaxError := ⟨c.offset, kind⟩

/-- The next byte and the cursor behind it. -/
def next? : (c : Cursor) → Option (UInt8 × c.After)
  | ⟨[], _⟩ => none
  | ⟨b :: rest, offset⟩ => some (b, ⟨⟨rest, offset + 1⟩, by simp [left]⟩)

/-- Whether `b` separates conditions: blank, tab, line feed, form feed or carriage return. -/
def isSpace (b : UInt8) : Bool :=
  b == 0x20 || b == 0x09 || b == 0x0a || b == 0x0c || b == 0x0d

/-- The cursor behind white space. -/
def skipSpace (c : Cursor) : c.Onward :=
  let space := c.rest.takeWhile isSpace
  ⟨⟨c.rest.drop space.length, c.offset + space.length⟩, by simp [left]⟩

end Cursor

/-- What reading at `c` gives: a value and the cursor behind its text. -/
abbrev Read (α : Type) (c : Cursor) : Type := Except SyntaxError (α × c.After)

/-! ### Single positions -/

/-- The value and the mask of a nibble: a hexadecimal digit, or `x` for all of them. -/
def nibbleMask? (b : UInt8) : Option (UInt8 × UInt8) :=
  if b == 'x'.toUInt8 || b == 'X'.toUInt8 then some (0, 0)
  else if '0'.toUInt8 ≤ b && b ≤ '9'.toUInt8 then some (b - '0'.toUInt8, 0x0f)
  else if 'a'.toUInt8 ≤ b && b ≤ 'f'.toUInt8 then some (b - 'a'.toUInt8 + 10, 0x0f)
  else if 'A'.toUInt8 ≤ b && b ≤ 'F'.toUInt8 then some (b - 'A'.toUInt8 + 10, 0x0f)
  else none

/-- The value and the mask of a bit: a binary digit, or `x` for both. -/
def bitMask? (b : UInt8) : Option (UInt8 × UInt8) :=
  if b == '0'.toUInt8 then some (0, 1)
  else if b == '1'.toUInt8 then some (1, 1)
  else if b == 'x'.toUInt8 || b == 'X'.toUInt8 then some (0, 0)
  else none

/-- Whether the condition on a position can begin with `b`. -/
def startsClass (b : UInt8) : Bool :=
  b == '?'.toUInt8 || b == '%'.toUInt8 || b == '\''.toUInt8 || (nibbleMask? b).isSome

/-- One nibble. -/
def readNibble (c : Cursor) : Read (UInt8 × UInt8) c :=
  match c.next? with
  | none => .error (c.fault .unexpectedEnd)
  | some (b, d) =>
    match nibbleMask? b with
    | some nibble => .ok (nibble, d)
    | none => .error (c.fault .invalidNibble)

/-- Two nibbles, as the value and the mask of a byte. -/
def readByte (c : Cursor) : Read (UInt8 × UInt8) c := do
  let (high, ⟨d, hd⟩) ← readNibble c
  let (low, ⟨e, he⟩) ← readNibble d
  return ((high.1 <<< 4 ||| low.1, high.2 <<< 4 ||| low.2), ⟨e, by omega⟩)

/-- A byte, or a range between two bytes without wildcards. -/
def readByteOrRange (c : Cursor) : Read ByteClass c := do
  let ((value, mask), ⟨d, hd⟩) ← readByte c
  match d.next? with
  | none => return (.ofMask value mask, ⟨d, hd⟩)
  | some (b, ⟨e, he⟩) =>
    if b == '-'.toUInt8 then
      let ((high, highMask), ⟨f, hf⟩) ← readByte e
      if mask == 0xff && highMask == 0xff && value ≤ high then
        return (.range value high, ⟨f, by omega⟩)
      else throw (c.fault .invalidRange)
    else return (.ofMask value mask, ⟨d, hd⟩)

/-- `count` more bits behind those already read into `value` and `mask`. -/
def readBits : (count : Nat) → (value mask : UInt8) → (c : Cursor) →
    Except SyntaxError (ByteClass × c.Onward)
  | 0, value, mask, c => .ok (.ofMask value mask, ⟨c, Nat.le_refl _⟩)
  | count + 1, value, mask, c =>
    match c.next? with
    | none => .error (c.fault .unexpectedEnd)
    | some (b, ⟨d, hd⟩) =>
      match bitMask? b with
      | none => .error (c.fault .invalidBit)
      | some (bit, bitMask) => do
        let (bits, ⟨e, he⟩) ← readBits count (value <<< 1 ||| bit) (mask <<< 1 ||| bitMask) d
        return (bits, ⟨e, by omega⟩)

/-- The condition on one position, without operators. -/
def readSingle (c : Cursor) : Read ByteClass c :=
  match c.next? with
  | none => .error (c.fault .unexpectedEnd)
  | some (b, ⟨d, hd⟩) =>
    if b == '?'.toUInt8 then .ok (.any, ⟨d, hd⟩)
    else if b == '%'.toUInt8 then do
      let (bits, ⟨e, he⟩) ← readBits 8 0 0 d
      return (bits, ⟨e, by omega⟩)
    else if b == '\''.toUInt8 then
      match d.next? with
      | none => .error (d.fault .unexpectedEnd)
      | some (char, ⟨e, he⟩) =>
        if char < 0x80 then .ok (.exact char, ⟨e, by omega⟩)
        else .error (d.fault .unexpectedCharacter)
    else if startsClass b then readByteOrRange c
    else .error (c.fault .unexpectedCharacter)

/-! ### Operators -/

/-- The cursor behind the operator `op`, when it comes next. The start of a condition has to follow
    it. White space may stand on both sides. -/
def readOperator (op : UInt8) (c : Cursor) : Except SyntaxError (Option c.After) :=
  let ⟨d, hd⟩ := c.skipSpace
  match d.next? with
  | none => .ok none
  | some (b, ⟨e, he⟩) =>
    if b == op then
      let ⟨f, hf⟩ := e.skipSpace
      if f.rest.head?.any startsClass then .ok (some ⟨f, by omega⟩)
      else .error (d.fault .danglingOperator)
    else .ok none

/-- One or more parts with `op` between them. -/
def readJoined (op : UInt8) (part : (c : Cursor) → Read ByteClass c) (c : Cursor) :
    Read (List ByteClass) c := do
  let (first, ⟨d, hd⟩) ← part c
  match ← readOperator op d with
  | none => return ([first], ⟨d, hd⟩)
  | some ⟨e, he⟩ =>
    let (others, ⟨f, hf⟩) ← readJoined op part e
    return (first :: others, ⟨f, by omega⟩)
termination_by c.left
decreasing_by omega

/-- The combination of the members. A single member stands for itself. -/
def combine (join : List ByteClass → ByteClass) : List ByteClass → ByteClass
  | [member] => member
  | members => join members

/-- Single conditions with `&` between them. -/
def readConjunction (c : Cursor) : Read ByteClass c := do
  let (members, d) ← readJoined '&'.toUInt8 readSingle c
  return (combine .allOf members, d)

/-- Conjunctions with `|` between them. -/
def readAlternation (c : Cursor) : Read ByteClass c := do
  let (members, d) ← readJoined '|'.toUInt8 readConjunction c
  return (combine .anyOf members, d)

/-! ### Repetition -/

/-- Whether `b` is a decimal digit. -/
def isDigit (b : UInt8) : Bool := '0'.toUInt8 ≤ b && b ≤ '9'.toUInt8

/-- A positive decimal number that is a 64-bit word. -/
def readDecimal (c : Cursor) : Read Nat c :=
  let digits := c.rest.takeWhile isDigit
  let value := digits.foldl (fun n b => 10 * n + (b.toNat - '0'.toNat)) 0
  if h : digits = [] then
    .error (c.fault (if c.rest = [] then .unexpectedEnd else .invalidQuantifier))
  else if UInt64.size ≤ value then .error (c.fault .tooLong)
  else if value = 0 then .error (c.fault .invalidQuantifier)
  else
    .ok (value, ⟨⟨c.rest.drop digits.length, c.offset + digits.length⟩, by
      have hpos : 0 < digits.length := List.length_pos_iff.2 h
      have hle : digits.length ≤ c.rest.length := (List.takeWhile_prefix _).length_le
      simp only [Cursor.left, List.length_drop]
      omega⟩)

/-- A number with `close` right behind it. -/
def readCount (close : UInt8) (c : Cursor) : Read Nat c := do
  let (count, ⟨d, hd⟩) ← readDecimal c
  match d.next? with
  | none => throw (d.fault .unexpectedEnd)
  | some (b, ⟨e, he⟩) =>
    if b == close then return (count, ⟨e, by omega⟩) else throw (d.fault .invalidQuantifier)

/-- How often what was read stands: the number in braces, or once. -/
def readQuantifier (c : Cursor) : Except SyntaxError (Nat × c.Onward) := do
  let ⟨d, hd⟩ := c.skipSpace
  match d.next? with
  | none => return (1, ⟨d, hd⟩)
  | some (b, ⟨e, he⟩) =>
    if b == '\x7b'.toUInt8 then
      let (count, ⟨f, hf⟩) ← readCount '\x7d'.toUInt8 e
      return (count, ⟨f, by omega⟩)
    else return (1, ⟨d, hd⟩)

/-- `classes` with `count` copies of `group` behind them, unless that is too long. -/
def repeated (c : Cursor) (classes group : Array ByteClass) (count : Nat) :
    Except SyntaxError (Array ByteClass) :=
  if classes.size + group.size * count ≤ maxLength then
    .ok (count.fold (fun _ _ all => all ++ group) classes)
  else .error (c.fault .tooLong)

/-! ### Sequences -/

/-- Positions up to the end of the text, or up to the parenthesis that closes the group opened at
    `opened`. The classes of earlier positions stand in `classes`. -/
def readSequence (start : Cursor) (opened : Option Nat) (classes : Array ByteClass) (c : Cursor)
    (hc : c.left ≤ start.left) : Except SyntaxError (Array ByteClass × start.Onward) := do
  let ⟨d, hd⟩ := c.skipSpace
  match d.next? with
  | none =>
    match opened with
    | some offset => throw ⟨offset, .unbalancedGroup⟩
    | none => return (classes, ⟨d, by omega⟩)
  | some (b, ⟨e, he⟩) =>
    if b == ')'.toUInt8 then
      if opened.isNone then throw (d.fault .unbalancedGroup)
      return (classes, ⟨e, by omega⟩)
    else if b == '('.toUInt8 then
      let (group, ⟨f, hf⟩) ← readSequence e (some d.offset) #[] e (Nat.le_refl _)
      if group.isEmpty then throw (d.fault .empty)
      let (count, ⟨g, hg⟩) ← readQuantifier f
      let longer ← repeated g classes group count
      readSequence start opened longer g (by omega)
    else if b == '+'.toUInt8 then
      let (count, ⟨f, hf⟩) ← readCount '+'.toUInt8 e
      let longer ← repeated f classes #[.any] count
      readSequence start opened longer f (by omega)
    else
      let (condition, ⟨f, hf⟩) ← readAlternation d
      let (count, ⟨g, hg⟩) ← readQuantifier f
      let longer ← repeated g classes #[condition] count
      readSequence start opened longer g (by omega)
termination_by c.left
decreasing_by all_goals omega

/-- The pattern that `text` describes. -/
def compile (text : String) : Except SyntaxError Pattern := do
  let start : Cursor := ⟨text.toUTF8.data.toList, 0⟩
  let (classes, _) ← readSequence start none #[] start (Nat.le_refl _)
  if h : classes.toList = [] then throw ⟨0, .empty⟩
  else return ⟨classes.toList, h⟩

end Pattern

end Chiptune
