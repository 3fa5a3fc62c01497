import Chiptune.Plugin.Basic
import Chiptune.Tune.Ay.Reader

namespace Chiptune

/-!
# AY files

An AY file holds songs for the sound chip of home computers with a Z80 processor: for each song a
name, a length, and blocks of memory with the code that plays it. Numbers have the high byte first.

* `Ay.parse` — the songs of a file, and how far it reaches;
* `Ay.read` — every song as a tune.
-/

namespace Ay

/-- One song. Lengths count frames; a length of zero is not known. -/
structure Song where
  name : String
  frames : Nat
  fade : Nat
deriving DecidableEq

/-- What a file holds. The first song to play is counted from zero. -/
structure File where
  author : String
  comment : String
  songs : List Song
  firstSong : Nat
deriving DecidableEq

/-- The word that a file begins with. -/
def magic : String := "ZXAYEMUL"

/-- The size of the header. -/
def headerSize : Nat := 20

/-- The size of the entry of a song in the table of songs: pointers to name and data. -/
def entrySize : Nat := 4

/-- The size of the data of a song. -/
def songSize : Nat := 14

/-- The size of the registers and entry points of a song. -/
def pointsSize : Nat := 6

/-- The size of the record of a block: address, length and a pointer to the bytes. -/
def blockSize : Nat := 6

/-- The number of bytes that the processor can address. -/
def memorySize : Nat := 0x10000

/-- The magic word, in a whole header. -/
def signature : Signature := .ofPattern ⟨Pattern.literal magic, by decide⟩ headerSize

/-! ### Structures -/

open Reader

/-- The block with the record at `offset`, for the given address. No block goes beyond the end of
    memory, and it is cut off where the file ends. -/
def block (offset address : Nat) : Reader Unit := do
  need offset blockSize
  let length ← word (offset + 2)
  let start ← pointer (offset + 4)
  span start (min length (memorySize - address))

/-- The blocks with records from `offset` on, up to the address zero. -/
def blocks (w : Window) (offset : Nat) : Except DecodeError (Unit × Nat) :=
  let next : Reader Unit :=
    if _h : offset + blockSize ≤ w.size then fun _ => blocks w (offset + blockSize)
    else fail .truncated
  let all : Reader Unit := do
    let address ← word offset
    if address ≠ 0 then
      block offset address
      next
  all w
termination_by w.size - offset
decreasing_by have : 0 < blockSize := by decide
              omega

/-- The song with the entry at `entry`. -/
def song (entry : Nat) : Reader Song := do
  need entry entrySize
  let name ← textAt entry
  let data ← pointer (entry + 2)
  need data songSize
  let frames ← word (data + 4)
  let fade ← word (data + 6)
  optional (data + 10) fun points => need points pointsSize
  optional (data + 12) fun first w => blocks w first
  return ⟨name, frames, fade⟩

/-- The songs with `count` entries from `table` on. -/
def songs (table : Nat) : (count : Nat) → Reader (List Song)
  | 0 => return []
  | count + 1 => do
    let first ← song table
    let rest ← songs (table + entrySize) count
    return first :: rest

/-- The whole file. -/
def file : Reader File := do
  need 0 headerSize
  if !(← beginsWith (Window.ascii magic)) then fail .wrongSignature
  let author ← textAt 12
  let comment ← textAt 14
  let count := (← byte 16).toNat + 1
  let firstSong := (← byte 17).toNat
  if count ≤ firstSong then fail (.firstSong (firstSong + 1) count)
  let table ← pointer 18
  let songs ← songs table count
  return { author, comment, songs, firstSong }

/-- The file at the start of `w` and its extent. -/
def parse (w : Window) : Except DecodeError (File × Nat) := file w

/-! ### Tunes -/

/-- Whether an AY file is at the start of `w`. -/
def check (w : Window) : Bool := signature.matchesStart w && (parse w).isOk

/-- The name of the format. -/
def formatName : String := "AY"

/-- What is known of a song. -/
def File.info (f : File) (s : Song) : TuneInfo where
  title := s.name
  author := f.author
  comments := f.comment
  format := formatName
  frameCount := if s.frames = 0 then none else some s.frames

/-- Every song as a tune. -/
def read (w : Window) : Except DecodeError TuneSet := do
  let (f, extent) ← parse w
  let some data := w.sub? 0 extent | throw .truncated
  let tracks := f.songs.zipIdx.map fun (s, i) =>
    let info := f.info s
    ⟨⟨info, data, some (i + 1)⟩, info.toProperties⟩
  let properties := (∅ : Properties)
    |>.setNonEmpty Key.author (trimBlank f.author)
    |>.setNonEmpty Key.comment (trimBlank f.comment)
    |>.set Key.program (.text formatName)
  return { consumed := extent, fixed := (0, extent), properties, tracks }

/-- The plugin for AY files. -/
def plugin : Plugin where
  id := "AY"
  description := "ZXAYEMUL module"
  features := .deviceAy ||| .cpuZ80
  signature := signature
  check := check
  decoder := .multitrack [] read

end Ay

end Chiptune
