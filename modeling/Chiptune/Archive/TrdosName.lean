namespace Chiptune

/-!
# File names of TR-DOS

A TR-DOS file has eight characters of name, filled up with blanks, and one character of type.
`trdosName` writes them as `NAME.T`.
-/

/-- The character for a byte of a name. Bytes that are not printable, and characters that have a
    meaning in paths, become underlines. -/
def trdosChar (b : UInt8) : Char :=
  let c := Char.ofNat b.toNat
  if 0x20 ≤ b && b < 0x7f && !"/\\?*:|\"<>".toList.contains c then c else '_'

/-- The name and the type with a dot between them. A name of blanks becomes an underline. -/
def trdosName (name : List UInt8) (type : UInt8) : String :=
  let stem := ((name.map trdosChar).reverse.dropWhile (· == ' ')).reverse
  String.ofList ((if stem.isEmpty then ['_'] else stem) ++ ['.', trdosChar type])

end Chiptune
