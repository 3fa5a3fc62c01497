import Chiptune.Bytes.Checksum
import Chiptune.Bytes.Number
import Chiptune.DecodeError

namespace Chiptune.Lha

/-!
# Headers of archive members

A member of an archive is a header and the packed data behind it. There are three levels of headers.
Level 0 has a checksum and ends with the file name. Level 1 ends with the size of a first extension,
and the extensions count as packed data. Level 2 begins with the size of the whole header and has a
first extension too. An extension ends with the size of the next one, which is zero when there is
none.

`Member.read` reads the header and verifies it. Numbers have the low byte first.
-/

/-- What a header says: the method, where the packed data begins, its size, and the size of the
    unpacked data. -/
structure Member where
  method : UInt8
  start : Nat
  packed : Nat
  size : Nat

/-- Where the level of a header stands. -/
def levelOffset : Nat := 20

/-- The least size of a header. -/
def minHeaderSize : Nat := 24

/-- The size of a level 2 header without extensions. -/
def baseSize : Nat := 26

/-- The number of bytes that the first member of an archive takes, header and packed data, when all
    of them are there. The packed size of a level 1 header includes the extensions. -/
def memberSize? (w : Window) : Option Nat := do
  let level ← w[levelOffset]?
  let header ← if level ≤ 1 then w[0]?.map fun length => length.toNat + 2 else w.le16? 0
  let packed ← w.le32? 7
  if minHeaderSize ≤ header ∧ header + packed ≤ w.size then some (header + packed) else none

/-! ### Extensions -/

/-- The bytes of an extension: its type, its data, and the size of the next one. -/
structure Extension where
  bytes : List UInt8

namespace Extension

/-- The type of an extension that holds the checksum of the header. -/
def checksumType : UInt8 := 0x00

/-- The type of an extension that holds sizes of 64 bits. -/
def sizesType : UInt8 := 0x42

/-- The checksum of the header, in an extension for it. -/
def checksum? (e : Extension) : Option Nat :=
  match e.bytes with
  | type :: low :: high :: _ => if type = checksumType then some (valueLE [low, high]) else none
  | _ => none

/-- The bytes with zeros in place of the checksum of the header. -/
def cleared (e : Extension) : List UInt8 :=
  match e.bytes with
  | type :: low :: high :: rest =>
    if type = checksumType then type :: 0 :: 0 :: rest else type :: low :: high :: rest
  | bytes => bytes

/-- The size of the next extension. A checksum may reach into it, and counts as zero there too. -/
def nextSize (e : Extension) : Nat := valueLE (e.cleared.drop (e.bytes.length - 2))

/-- The packed and the unpacked size, in an extension for them. -/
def sizes? (e : Extension) : Option (Nat × Nat) :=
  match e.bytes with
  | [] => none
  | type :: rest =>
    if type = sizesType ∧ 16 ≤ rest.length then
      some (valueLE (rest.take 8), valueLE ((rest.drop 8).take 8))
    else none

end Extension

/-- The extensions from `offset` on, the first of which has the given size. An extension holds its
    type and the size of the next one at least. -/
def extensions (w : Window) (offset size : Nat) : Except UnpackError (List Extension) :=
  if size = 0 then .ok []
  else if _h : size < 3 ∨ w.size < offset + size then .error .damagedHeader
  else
    let first : Extension := ⟨((w.drop offset).take size).toList⟩
    (extensions w (offset + size) first.nextSize).map (first :: ·)
termination_by w.size - offset
decreasing_by omega

/-- The number of bytes of all extensions. -/
def extendedSize (extensions : List Extension) : Nat :=
  extensions.foldl (fun size e => size + e.bytes.length) 0

/-- Verify the checksum of a header whose parts are `base`, extensions and `padding`, if it has an
    extension for it. It must not have two. -/
def verify (base : Window) (extensions : List Extension) (padding : Window) :
    Except UnpackError Unit :=
  match extensions.filterMap Extension.checksum? with
  | [] => .ok ()
  | [stored] =>
    let bytes := base.toList ++ extensions.flatMap Extension.cleared ++ padding.toList
    if stored = (bytes.foldl crc16Byte 0).toNat then .ok () else .error .damagedHeader
  | _ => .error .damagedHeader

/-- The member with the sizes of the last extension for them. -/
def Member.withSizes (m : Member) (extensions : List Extension) : Member :=
  match (extensions.filterMap Extension.sizes?).getLast? with
  | none => m
  | some (packed, size) => { m with packed, size }

/-! ### Levels -/

/-- The number of header bytes behind the first two in a header of level 0 or 1, when it has room
    for the file name and its checksum is right. -/
def checkedLength (w : Window) (fixed : Nat) : Except UnpackError Nat := do
  let some length := w[0]? | throw .damagedHeader
  let some checksum := w[1]? | throw .damagedHeader
  let some nameLength := w[21]? | throw .damagedHeader
  if length.toNat < fixed + nameLength.toNat then throw .damagedHeader
  if checksum.toNat ≠ ((w.drop 2).take length.toNat).byteSum % 256 then throw .damagedHeader
  return length.toNat

/-- The number of bytes between the extensions of a level 2 header, which end at `stop`, and the
    packed data, if a header of this length ends so: none or one. Some archivers leave the two bytes
    of the length itself out of it. -/
def paddingSize? (stop length : Nat) : Option Nat :=
  if length = stop ∨ length + 2 = stop then some 0
  else if length = stop + 1 then some 1
  else none

/-- The first member of the archive at the start of `w`. A zero at the start is the end of an
    archive. -/
def Member.read (w : Window) : Except UnpackError Member := do
  let some method := w[5]? | throw .damagedHeader
  let some packed := w.le32? 7 | throw .damagedHeader
  let some size := w.le32? 11 | throw .damagedHeader
  let some level := w[levelOffset]? | throw .damagedHeader
  if w[0]? == some 0 then throw .damagedHeader
  let member : Member := ⟨method, 0, packed, size⟩
  match level with
  | 0 =>
    let length ← checkedLength w 22
    return { member with start := length + 2 }
  | 1 =>
    let length ← checkedLength w 25
    let some first := w.le16? length | throw .damagedHeader
    let extensions ← extensions w (length + 2) first
    verify (w.take (length + 2)) extensions .empty
    let extended := extendedSize extensions
    if packed < extended then throw .damagedHeader
    return { member with start := length + 2 + extended, packed := packed - extended }
  | _ =>
    let some length := w.le16? 0 | throw .damagedHeader
    let some first := w.le16? (baseSize - 2) | throw .damagedHeader
    let extensions ← extensions w baseSize first
    let stop := baseSize + extendedSize extensions
    let some padding := paddingSize? stop length | throw .damagedHeader
    verify (w.take baseSize) extensions ((w.drop stop).take padding)
    return { member.withSizes extensions with start := stop + padding }

/-- The packed data of the member. -/
def Member.body (m : Member) (w : Window) : Window := (w.drop m.start).take m.packed

end Chiptune.Lha
