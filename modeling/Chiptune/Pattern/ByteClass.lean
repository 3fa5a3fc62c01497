import Chiptune.Text.Numeral

namespace Chiptune

/-!
# Classes of bytes

A `ByteClass` is the condition that a pattern puts on the byte at one position.

* `ByteClass.accepts` — which bytes meet it;
* `ByteClass.exactValue?` — the byte, where only one does and the class says so plainly;
* `ByteClass.render` — the class as pattern text.
-/

/-- A condition on one byte. `masked value mask` compares the bits of `mask`; `allOf` and `anyOf`
    combine conditions. -/
inductive ByteClass where
  | any
  | masked (value mask : UInt8)
  | range (low high : UInt8)
  | allOf (members : List ByteClass)
  | anyOf (members : List ByteClass)

namespace ByteClass

mutual

/-- Equality of classes, by their form. -/
def decEq : (c d : ByteClass) → Decidable (c = d)
  | .any, .any => isTrue rfl
  | .masked value mask, .masked value' mask' =>
    decidable_of_iff (value = value' ∧ mask = mask') (by simp)
  | .range low high, .range low' high' =>
    decidable_of_iff (low = low' ∧ high = high') (by simp)
  | .allOf members, .allOf members' =>
    match decEqList members members' with
    | isTrue h => isTrue (h ▸ rfl)
    | isFalse h => isFalse (by simpa using h)
  | .anyOf members, .anyOf members' =>
    match decEqList members members' with
    | isTrue h => isTrue (h ▸ rfl)
    | isFalse h => isFalse (by simpa using h)
  | .any, .masked .. | .any, .range .. | .any, .allOf _ | .any, .anyOf _
  | .masked .., .any | .masked .., .range .. | .masked .., .allOf _ | .masked .., .anyOf _
  | .range .., .any | .range .., .masked .. | .range .., .allOf _ | .range .., .anyOf _
  | .allOf _, .any | .allOf _, .masked .. | .allOf _, .range .. | .allOf _, .anyOf _
  | .anyOf _, .any | .anyOf _, .masked .. | .anyOf _, .range .. | .anyOf _, .allOf _ =>
    isFalse nofun

/-- Equality of lists of classes. -/
def decEqList : (l l' : List ByteClass) → Decidable (l = l')
  | [], [] => isTrue rfl
  | c :: l, c' :: l' =>
    match decEq c c', decEqList l l' with
    | isTrue h, isTrue h' => isTrue (h ▸ h' ▸ rfl)
    | isFalse h, _ => isFalse fun e => h (List.cons.inj e).1
    | _, isFalse h => isFalse fun e => h (List.cons.inj e).2
  | [], _ :: _ | _ :: _, [] => isFalse nofun

end

instance : DecidableEq ByteClass := decEq

/-- The class of `value` alone. -/
def exact (value : UInt8) : ByteClass := .masked value 0xff

/-- The class of the bytes that agree with `value` on the bits of `mask`. Without such bits it is
    the class of all bytes. -/
def ofMask (value mask : UInt8) : ByteClass :=
  if mask == 0 then .any else .masked (value &&& mask) mask

mutual

/-- Whether `b` is in the class. -/
def accepts (b : UInt8) : ByteClass → Bool
  | .any => true
  | .masked value mask => b &&& mask == value
  | .range low high => low ≤ b && b ≤ high
  | .allOf members => allAccept b members
  | .anyOf members => anyAccepts b members

/-- Whether `b` is in all of the classes. -/
def allAccept (b : UInt8) : List ByteClass → Bool
  | [] => true
  | c :: rest => c.accepts b && allAccept b rest

/-- Whether `b` is in one of the classes. -/
def anyAccepts (b : UInt8) : List ByteClass → Bool
  | [] => false
  | c :: rest => c.accepts b || anyAccepts b rest

end

/-- The only byte of a class that is a single byte on its face: a mask of all bits, or a range with
    equal ends. -/
def exactValue? : ByteClass → Option UInt8
  | .masked value mask => if mask == 0xff then some value else none
  | .range low high => if low == high then some low else none
  | _ => none

/-! ### Text -/

/-- The bit of weight `2 ^ i` in a mask: `x` when it is not compared. -/
def bitMark (value mask : UInt8) (i : Nat) : Char :=
  if mask.toNat.testBit i then (if value.toNat.testBit i then '1' else '0') else 'x'

/-- The bits of a mask, most significant first. -/
def bitMarks (value mask : UInt8) : String :=
  String.ofList ((List.range 8).reverse.map (bitMark value mask))

mutual

/-- The class in the pattern language. -/
def render : ByteClass → String
  | .any => "?"
  | .masked value mask =>
    if mask == 0xff then Numeral.hex 2 value.toNat else "%" ++ bitMarks value mask
  | .range low high => Numeral.hex 2 low.toNat ++ "-" ++ Numeral.hex 2 high.toNat
  | .allOf members => "&".intercalate (renderEach members)
  | .anyOf members => "|".intercalate (renderEach members)

/-- The classes in the pattern language, one text for each. -/
def renderEach : List ByteClass → List String
  | [] => []
  | c :: rest => c.render :: renderEach rest

end

end ByteClass

end Chiptune
