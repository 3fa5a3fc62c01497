import Chiptune.Json.Basic

namespace Chiptune

/-!
# Reading JSON

`Json.parse?` reads one JSON value with white space around it and nothing else. Every reading
function returns the characters behind what it read, with the proof that there are fewer of them.

Integers are kept when they fit a signed or an unsigned 64-bit word; any other number, and the
negative zero, is a `Json.real`.
-/

namespace Json

/-- The characters behind what was read at the start of `s`. -/
abbrev Rest (s : List Char) : Type := { r : List Char // r.length < s.length }

/-! ### Characters -/

/-- Whether `c` is JSON white space. -/
def isSpace (c : Char) : Bool := c == ' ' || c == '\n' || c == '\t' || c == '\r'

/-- The first character. -/
def next? : (s : List Char) → Option (Char × Rest s)
  | [] => none
  | c :: r => some (c, ⟨r, by simp⟩)

/-- The first character that is not white space. -/
def nextMark? (s : List Char) : Option (Char × Rest s) := do
  let (c, ⟨r, hr⟩) ← next? (s.dropWhile isSpace)
  have hle : (s.dropWhile isSpace).length ≤ s.length := (List.dropWhile_suffix _).length_le
  return (c, ⟨r, by omega⟩)

/-- The characters behind the word `word`. -/
def expect (word : List Char) (s : List Char) : Option { r : List Char // r.length ≤ s.length } :=
  if word.isPrefixOf s then some ⟨s.drop word.length, by simp⟩ else none

/-! ### Texts -/

/-- The value of a hexadecimal digit. -/
def hexValue? (c : Char) : Option Nat :=
  if '0' ≤ c ∧ c ≤ '9' then some (c.toNat - '0'.toNat)
  else if 'a' ≤ c ∧ c ≤ 'f' then some (c.toNat - 'a'.toNat + 10)
  else if 'A' ≤ c ∧ c ≤ 'F' then some (c.toNat - 'A'.toNat + 10)
  else none

/-- The number that four hexadecimal digits denote. -/
def hexUnit? (a b c d : Char) : Option Nat := do
  return 4096 * (← hexValue? a) + 256 * (← hexValue? b) + 16 * (← hexValue? c) + (← hexValue? d)

/-- The character for the letter of a short escape. -/
def unescape? : Char → Option Char
  | '"' => some '"'
  | '\\' => some '\\'
  | '/' => some '/'
  | 'b' => some '\x08'
  | 'f' => some '\x0c'
  | 'n' => some '\n'
  | 'r' => some '\r'
  | 't' => some '\t'
  | _ => none

/-- The character of a pair of surrogates. -/
def surrogatePair? (high low : Nat) : Option Char :=
  if 0xd800 ≤ high ∧ high < 0xdc00 ∧ 0xdc00 ≤ low ∧ low < 0xe000 then
    some (Char.ofNat (0x10000 + 1024 * (high - 0xd800) + (low - 0xdc00)))
  else none

/-- The number behind the escape mark for one 16-bit unit. -/
def unitEscape? : (s : List Char) → Option (Nat × Rest s)
  | '\\' :: 'u' :: a :: b :: c :: d :: r => do
    let unit ← hexUnit? a b c d
    return (unit, ⟨r, by simp only [List.length_cons]; omega⟩)
  | _ => none

/-- The first character inside quotes, written as it is or with a short escape. -/
def plainChar? : (s : List Char) → Option (Char × Rest s)
  | '\\' :: c :: r => do
    let char ← unescape? c
    return (char, ⟨r, by simp only [List.length_cons]; omega⟩)
  | c :: r => if c == '\\' || c.toNat < 0x20 then none else some (c, ⟨r, by simp⟩)
  | [] => none

/-- The first character inside quotes, escapes resolved. -/
def textChar? (s : List Char) : Option (Char × Rest s) :=
  match unitEscape? s with
  | none => plainChar? s
  | some (unit, ⟨r, hr⟩) =>
    if 0xd800 ≤ unit ∧ unit < 0xe000 then do
      let (low, ⟨t, ht⟩) ← unitEscape? r
      let char ← surrogatePair? unit low
      return (char, ⟨t, by omega⟩)
    else some (Char.ofNat unit, ⟨r, hr⟩)

/-- The characters up to the closing quote. -/
def textBody (s : List Char) : Option (List Char × Rest s) :=
  match next? s with
  | some ('"', r) => some ([], r)
  | _ => do
    let (c, ⟨r, hr⟩) ← textChar? s
    let (cs, ⟨t, ht⟩) ← textBody r
    return (c :: cs, ⟨t, by omega⟩)
termination_by s.length

/-! ### Numbers -/

/-- The value of decimal digits. -/
def digitsValue (digits : List Char) : Nat :=
  digits.foldl (fun n d => 10 * n + (d.toNat - '0'.toNat)) 0

/-- Whether `digits` may stand before the point: there is one at least, and a zero stands alone. -/
def isWhole (digits : List Char) : Bool :=
  match digits with
  | [] => false
  | ['0'] => true
  | first :: _ => first != '0'

/-- The digits of a number in its three parts. -/
structure NumberText where
  negative : Bool
  whole : List Char
  fraction : Option (List Char)
  exponent : Option (List Char)

/-- The value of a number. -/
def NumberText.value (t : NumberText) : Json :=
  let n := digitsValue t.whole
  let sign := if t.negative then "-" else ""
  match t.fraction, t.exponent with
  | none, none =>
    if t.negative then
      if 0 < n ∧ n ≤ 0x8000000000000000 then .integer (-n)
      else .real (sign ++ String.ofList t.whole)
    else if n < UInt64.size then .integer n
    else .real (String.ofList t.whole)
  | fraction, exponent =>
    .real (sign ++ String.ofList (t.whole ++ (fraction.elim [] ('.' :: ·))
      ++ (exponent.elim [] ('e' :: ·))))

/-- The digits behind a point, if one comes next. -/
def fractionPart (s : List Char) :
    Option (Option (List Char) × { r : List Char // r.length ≤ s.length }) :=
  match next? s with
  | some ('.', ⟨r, hr⟩) =>
    let digits := r.takeWhile Char.isDigit
    if digits.isEmpty then none
    else some (some digits, ⟨r.drop digits.length, by rw [List.length_drop]; omega⟩)
  | _ => some (none, ⟨s, Nat.le_refl _⟩)

/-- The sign and digits behind the mark of an exponent, if one comes next. -/
def exponentPart (s : List Char) :
    Option (Option (List Char) × { r : List Char // r.length ≤ s.length }) :=
  match next? s with
  | some (mark, ⟨r, hr⟩) =>
    if mark == 'e' || mark == 'E' then
      let sign := (r.take 1).filter fun c => c == '+' || c == '-'
      let digits := (r.drop sign.length).takeWhile Char.isDigit
      if digits.isEmpty then none
      else some (some (sign ++ digits), ⟨r.drop (sign.length + digits.length), by
        rw [List.length_drop]; omega⟩)
    else some (none, ⟨s, Nat.le_refl _⟩)
  | none => some (none, ⟨s, Nat.le_refl _⟩)

/-- A number. -/
def number (s : List Char) : Option (Json × Rest s) := do
  let negative := s.head? == some '-'
  let start := if negative then 1 else 0
  let whole := (s.drop start).takeWhile Char.isDigit
  if h : isWhole whole then
    let behind := s.drop (start + whole.length)
    have hbehind : behind.length < s.length := by
      have hne : whole ≠ [] := by rintro hnil; simp [hnil, isWhole] at h
      have hpos := List.length_pos_iff.2 hne
      have hle : whole.length ≤ (s.drop start).length := (List.takeWhile_prefix _).length_le
      simp only [behind, List.length_drop] at hle ⊢
      omega
    let (fraction, ⟨r, hr⟩) ← fractionPart behind
    let (exponent, ⟨t, ht⟩) ← exponentPart r
    return (NumberText.value ⟨negative, whole, fraction, exponent⟩, ⟨t, by omega⟩)
  else none

/-! ### Values -/

mutual

/-- A value, with white space before it. -/
def value (s : List Char) : Option (Json × Rest s) :=
  match nextMark? s with
  | none => none
  | some ('n', ⟨r, hr⟩) => do
    let ⟨t, ht⟩ ← expect ['u', 'l', 'l'] r
    return (.null, ⟨t, by omega⟩)
  | some ('t', ⟨r, hr⟩) => do
    let ⟨t, ht⟩ ← expect ['r', 'u', 'e'] r
    return (.bool true, ⟨t, by omega⟩)
  | some ('f', ⟨r, hr⟩) => do
    let ⟨t, ht⟩ ← expect ['a', 'l', 's', 'e'] r
    return (.bool false, ⟨t, by omega⟩)
  | some ('"', ⟨r, hr⟩) => do
    let (cs, ⟨t, ht⟩) ← textBody r
    return (.text (String.ofList cs), ⟨t, by omega⟩)
  | some ('[', ⟨r, hr⟩) =>
    match nextMark? r with
    | some (']', ⟨t, ht⟩) => some (.array [], ⟨t, by omega⟩)
    | _ => do
      let (items, ⟨t, ht⟩) ← itemList r
      return (.array items, ⟨t, by omega⟩)
  | some ('\x7b', ⟨r, hr⟩) =>
    match nextMark? r with
    | some ('\x7d', ⟨t, ht⟩) => some (.object [], ⟨t, by omega⟩)
    | _ => do
      let (fields, ⟨t, ht⟩) ← fieldList r
      return (.object fields, ⟨t, by omega⟩)
  | some (c, ⟨r, hr⟩) => do
    let (n, ⟨t, ht⟩) ← number (c :: r)
    return (n, ⟨t, by rw [List.length_cons] at ht; omega⟩)
termination_by (s.length, 0)

/-- One or more items up to the closing bracket. -/
def itemList (s : List Char) : Option (List Json × Rest s) := do
  let (item, ⟨r, hr⟩) ← value s
  match nextMark? r with
  | some (',', ⟨t, ht⟩) =>
    let (items, ⟨u, hu⟩) ← itemList t
    return (item :: items, ⟨u, by omega⟩)
  | some (']', ⟨t, ht⟩) => return ([item], ⟨t, by omega⟩)
  | _ => none
termination_by (s.length, 1)

/-- One or more fields up to the closing brace. -/
def fieldList (s : List Char) : Option (List (String × Json) × Rest s) :=
  match nextMark? s with
  | some ('"', ⟨r, hr⟩) => do
    let (name, ⟨t, ht⟩) ← textBody r
    match nextMark? t with
    | some (':', ⟨u, hu⟩) =>
      let (item, ⟨v, hv⟩) ← value u
      match nextMark? v with
      | some (',', ⟨w, hw⟩) =>
        let (fields, ⟨x, hx⟩) ← fieldList w
        return ((String.ofList name, item) :: fields, ⟨x, by omega⟩)
      | some ('\x7d', ⟨w, hw⟩) => return ([(String.ofList name, item)], ⟨w, by omega⟩)
      | _ => none
    | _ => none
  | _ => none
termination_by (s.length, 1)

end

/-- The value that `text` denotes. -/
def parse? (text : String) : Option Json := do
  let (v, ⟨r, _⟩) ← value text.toList
  if r.all isSpace then some v else none

end Json

end Chiptune
