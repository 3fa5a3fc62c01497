import Chiptune.Archive.TrdosName
import Chiptune.Bytes.Checksum
import Chiptune.Bytes.Number
import Chiptune.Plugin.Basic

namespace Chiptune

/-!
# SCL disk images

An SCL image holds the files of a TR-DOS disk: the word `SINCLAIR`, the number of files, a record of
14 bytes for each, the sectors of all files back to back, and the sum of all bytes before it as a
32-bit number. Numbers have the low byte first.
-/

namespace Scl

/-- The word that an image begins with. -/
def magic : String := "SINCLAIR"

/-- The size of the magic word and the number of files. -/
def headerSize : Nat := 9

/-- The size of the record of one file. -/
def recordSize : Nat := 14

/-- The size of a sector. -/
def sectorSize : Nat := 256

/-- The size of the checksum. -/
def checksumSize : Nat := 4

/-- One file of one sector is the least. -/
def signature : Signature :=
  .ofPattern ⟨Pattern.literal magic ++ [.range 0x01 0xff], by decide⟩
    (headerSize + recordSize + sectorSize + checksumSize)

/-- What a record says about a file. -/
structure FileRecord where
  name : List UInt8
  type : UInt8
  sectors : Nat

/-- The number of bytes that the file takes. -/
def FileRecord.size (r : FileRecord) : Nat := r.sectors * sectorSize

/-- The record at `offset`. -/
def FileRecord.read? (w : Window) (offset : Nat) : Option FileRecord := do
  let name ← w.bytes? offset 8
  let type ← w[offset + 8]?
  let sectors ← w[offset + 13]?
  return ⟨name, type, sectors.toNat⟩

/-- The records of an image, where the sectors begin, and the size of the image. -/
structure Layout where
  records : List FileRecord
  dataStart : Nat
  size : Nat

/-- The records of the image at the start of `w`. -/
def readRecords? (w : Window) : Option (List FileRecord) := do
  let count ← w[magic.length]?
  (List.range count.toNat).mapM fun i => FileRecord.read? w (headerSize + i * recordSize)

/-- The layout of the image at the start of `w`, when all of the image is there and its sum is
    right. -/
def layout (w : Window) : Except DecodeError Layout := do
  if !signature.matchesStart w then throw .wrongSignature
  let some records := readRecords? w | throw .truncated
  let dataStart := headerSize + records.length * recordSize
  let bodyEnd := records.foldl (fun stop record => stop + record.size) dataStart
  let some stored := w.le32? bodyEnd | throw .truncated
  let computed := (w.take bodyEnd).byteSum % UInt32.size
  if stored ≠ computed then throw (.wrongChecksum stored computed)
  return ⟨records, dataStart, bodyEnd + checksumSize⟩

/-- Whether an SCL image is at the start of `w`. -/
def check (w : Window) : Bool := (layout w).isOk

/-- `base`, or `base` with the least number from two on that makes it differ from all of `used`. -/
def uniqueName (used : List String) (base : String) : String :=
  let candidates := base :: (List.range used.length).map fun i => s!"{base}~{i + 2}"
  (candidates.find? fun name => !used.contains name).getD base

/-- The entries for `records`, whose sectors begin at `offset`. Files without sectors are left out,
    and so are those that would claim more than the image in `claims`. Names in `used` are not
    given again. -/
def entries (w : Window) (claims : Claims) (used : List String) (offset : Nat) :
    List FileRecord → List Entry
  | [] => []
  | record :: rest =>
    let region : Region := ⟨offset, record.size⟩
    match claims.add? region with
    | none => entries w claims used (offset + record.size) rest
    | some claims =>
      match w.sub? offset record.size with
      | none => entries w claims used (offset + record.size) rest
      | some data =>
        let name := uniqueName used (trdosName record.name record.type)
        ⟨some name, some region, data⟩ ::
          entries w claims (name :: used) (offset + record.size) rest

/-- The files of the image. -/
def unpack (w : Window) : Except DecodeError Unpacked := do
  let layout ← layout w
  let files := entries w (.empty .total layout.size) [] layout.dataStart layout.records
  if files.isEmpty then throw .noFiles
  return { entries := files, consumed := layout.size }

/-- The plugin for SCL images. -/
def plugin : Plugin where
  id := "SCL"
  description := "SCL disk image"
  features := .none
  signature := signature
  check := check
  decoder := .archive fun _ => unpack

end Scl

end Chiptune
