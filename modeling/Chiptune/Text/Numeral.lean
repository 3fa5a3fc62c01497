namespace Chiptune

/-!
# Numerals

Decimal numbers as tags and options write them, and hexadecimal numbers as reports print them.
-/

namespace Numeral

/-- The value of a list of decimal digits. -/
def value (digits : List Char) : Nat :=
  digits.foldl (fun n d => 10 * n + (d.toNat - '0'.toNat)) 0

/-- The value below `bound` that `text` denotes: one or more ASCII digits, with or without a plus
    sign before them. -/
def parse? (bound : Nat) (text : String) : Option Nat :=
  let digits := match text.toList with
    | '+' :: rest => rest
    | all => all
  if !digits.isEmpty && digits.all Char.isDigit && value digits < bound then some (value digits)
  else none

/-- `n` with lower-case hexadecimal digits, filled up with zeros to `width`. -/
def hex (width n : Nat) : String :=
  let digits := Nat.toDigits 16 n
  String.ofList (List.replicate (width - digits.length) '0' ++ digits)

/-- `n` with decimal digits, filled up with zeros to `width`. -/
def decimal (width n : Nat) : String :=
  let digits := Nat.toDigits 10 n
  String.ofList (List.replicate (width - digits.length) '0' ++ digits)

end Numeral

end Chiptune
