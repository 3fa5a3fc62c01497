import Chiptune.Bytes.Window

namespace Chiptune

/-!
# UTF-8 with replacement

Texts in old files are often not UTF-8. `Utf8.decode` reads what is well formed and puts one
replacement character U+FFFD for each maximal ill-formed part: a lead byte together with those of
its continuation bytes that could still belong to a character.
-/

namespace Utf8

/-- The character put for an ill-formed part. -/
def replacement : Char := '\uFFFD'

/-- Whether `b` continues a character. -/
def isTail (b : UInt8) : Bool := 0x80 ≤ b && b ≤ 0xbf

/-- How a character may begin: how many continuation bytes follow, and the range of the first of
    them. -/
structure Lead where
  tails : Nat
  low : UInt8
  high : UInt8

/-- What follows the lead byte `b`. Second bytes are restricted where the character would have a
    shorter form, be a surrogate or pass the last code point. -/
def lead? (b : UInt8) : Option Lead :=
  if b ≤ 0x7f then some ⟨0, 0x80, 0xbf⟩
  else if 0xc2 ≤ b && b ≤ 0xdf then some ⟨1, 0x80, 0xbf⟩
  else if b == 0xe0 then some ⟨2, 0xa0, 0xbf⟩
  else if b == 0xed then some ⟨2, 0x80, 0x9f⟩
  else if 0xe1 ≤ b && b ≤ 0xef then some ⟨2, 0x80, 0xbf⟩
  else if b == 0xf0 then some ⟨3, 0x90, 0xbf⟩
  else if 0xf1 ≤ b && b ≤ 0xf3 then some ⟨3, 0x80, 0xbf⟩
  else if b == 0xf4 then some ⟨3, 0x80, 0x8f⟩
  else none

/-- The bits of a lead byte that belong to the code point, when `tails` bytes follow. -/
def leadBits (b : UInt8) : Nat → Nat
  | 0 => b.toNat
  | 1 => b.toNat % 32
  | 2 => b.toNat % 16
  | _ => b.toNat % 8

/-- The continuation bytes at the start of `rest` that belong to a character beginning with
    `lead`. -/
def tailsOf (lead : Lead) (rest : List UInt8) : List UInt8 :=
  match lead.tails, rest with
  | 0, _ => []
  | _, [] => []
  | n + 1, b :: more =>
    if lead.low ≤ b && b ≤ lead.high then b :: (more.take n).takeWhile isTail else []

/-- The code point of a complete character. -/
def codePoint (b : UInt8) (tails : List UInt8) : Nat :=
  tails.foldl (fun value t => 64 * value + t.toNat % 64) (leadBits b tails.length)

/-- The character that begins with `b`, or the replacement, and how many of the following bytes it
    takes. -/
def first (b : UInt8) (rest : List UInt8) : Char × Nat :=
  match lead? b with
  | none => (replacement, 0)
  | some lead =>
    let tails := tailsOf lead rest
    if tails.length = lead.tails then (Char.ofNat (codePoint b tails), tails.length)
    else (replacement, tails.length)

/-- Append the characters of `bytes` to `text`. -/
def decodeOnto (text : String) : List UInt8 → String
  | [] => text
  | b :: rest =>
    let (c, used) := first b rest
    decodeOnto (text.push c) (rest.drop used)
termination_by bytes => bytes.length
decreasing_by simp only [List.length_drop, List.length_cons]; omega

/-- The text of `bytes`. -/
def decode (bytes : List UInt8) : String := decodeOnto "" bytes

end Utf8

/-- The text of a window. -/
def Window.text (w : Window) : String := Utf8.decode w.toList

end Chiptune
