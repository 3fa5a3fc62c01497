import Chiptune.Bytes.Checksum
import Chiptune.Bytes.Number
import Chiptune.Plugin.Basic

namespace Chiptune

/-!
# Hobeta files

A Hobeta file wraps one TR-DOS file in a header of 17 bytes: eight bytes of name, the type and two
parameters, the length of the data, the same length in whole sectors of 256 bytes, and a checksum.
Numbers have the low byte first.
-/

namespace Hobeta

/-- The size of the header. -/
def headerSize : Nat := 17

/-- The most bytes that a file can hold. -/
def maxDataSize : Nat := 0xff00

/-- Name and type are printable, and the sector length is a positive multiple of 256. One byte of
    data is the least. -/
def signature : Signature :=
  .ofPattern
    ⟨List.replicate 8 (.range 0x20 0x7f) ++
      [.range 0x20 0x7f, .any, .any, .any, .any, .exact 0x00, .range 0x01 0xff, .any, .any],
      by decide⟩
    (headerSize + 1)

/-- What the header says about the data. -/
structure Header where
  length : Nat
  sectors : Nat
  checksum : Nat

/-- The header at the start of `w`. -/
def Header.read? (w : Window) : Option Header := do
  return ⟨← w.le16? 11, ← w.le16? 13, ← w.le16? 15⟩

/-- The checksum of a header: a linear function of the sum of its first 15 bytes. -/
def checksum (w : Window) : Nat := (105 + 257 * (w.take (headerSize - 2)).byteSum) % UInt16.size

/-- The least multiple of 256 that is not below `length`. -/
def wholeSectors (length : Nat) : Nat := (length + 255) / 256 * 256

/-- The header of the file at the start of `w`, when all of the file is there and right. -/
def parse (w : Window) : Except DecodeError Header := do
  if !signature.matchesStart w then throw .wrongSignature
  let some header := Header.read? w | throw .truncated
  if header.length = 0 ∨ maxDataSize < header.length then throw (.dataLength header.length)
  if header.sectors ≠ wholeSectors header.length then
    throw (.sectorLength header.sectors header.length)
  if header.checksum ≠ checksum w then throw (.wrongChecksum header.checksum (checksum w))
  if w.size < headerSize + header.length then throw .truncated
  return header

/-- Whether a Hobeta file is at the start of `w`. -/
def check (w : Window) : Bool := (parse w).isOk

/-- The wrapped file, as an entry without a name. -/
def unpack (w : Window) : Except DecodeError Unpacked := do
  let header ← parse w
  let some data := w.sub? headerSize header.length | throw .truncated
  return {
    entries := [⟨none, some ⟨headerSize, header.length⟩, data⟩]
    consumed := min (headerSize + header.sectors) w.size }

/-- The plugin for Hobeta files. -/
def plugin : Plugin where
  id := "HOBETA"
  description := "Hobeta"
  features := .none
  signature := signature
  check := check
  decoder := .archive fun _ => unpack

end Hobeta

end Chiptune
