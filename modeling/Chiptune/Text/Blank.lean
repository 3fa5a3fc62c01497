namespace Chiptune

/-!
# White space

`isBlank` is the Unicode property White_Space: 25 code points. `trimBlank` removes it from both
ends of a text.
-/

/-- The code points with the property White_Space, as ranges in ascending order. -/
def blankRanges : List (Nat × Nat) :=
  [(0x9, 0xd), (0x20, 0x20), (0x85, 0x85), (0xa0, 0xa0), (0x1680, 0x1680), (0x2000, 0x200a),
   (0x2028, 0x2029), (0x202f, 0x202f), (0x205f, 0x205f), (0x3000, 0x3000)]

/-- Whether `c` is white space. -/
def isBlank (c : Char) : Bool :=
  blankRanges.any fun (low, high) => low ≤ c.toNat && c.toNat ≤ high

/-- The text without white space at its ends. -/
def trimBlank (text : String) : String :=
  let body := text.toList.dropWhile isBlank
  String.ofList (body.reverse.dropWhile isBlank).reverse

end Chiptune
