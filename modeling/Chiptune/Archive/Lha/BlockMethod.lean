import Chiptune.Archive.Lha.CodeTree
import Chiptune.Archive.Lha.History

namespace Chiptune.Lha

/-!
# Packing in blocks

The methods `lh4` to `lh7` divide the packed data into blocks. A block begins with the number of its
commands and with three tables of code lengths: one for the lengths in the second, one for the
commands and one for the offsets of copies. A command is a byte to put out or the length of a copy.

* `BlockMethod` — in what the methods differ;
* `BlockMethod.decode` — the unpacked bytes.
-/

/-- The number of bits that tell how many offset codes there are, the most offset codes, and the
    size of the history. -/
structure BlockMethod where
  offsetWidth : Nat
  maxOffsets : Nat
  history : Nat

namespace BlockMethod

/-- The methods `lh4` and `lh5`. -/
def small : BlockMethod := ⟨4, 14, 0x2000⟩

/-- The methods `lh6` and `lh7`. -/
def large : BlockMethod := ⟨5, 17, 0x10000⟩

/-- The most codes in the table of code lengths. -/
def maxLengthCodes : Nat := 20

/-- The most commands: 256 bytes and the lengths of copies. -/
def maxCommands : Nat := 510

/-- The shortest copy. -/
def minCopy : Nat := 3

/-! ### Tables -/

/-- A code length: three bits, and when they are all ones the ones that follow. -/
def readLength (r : BitReader) : Except UnpackError (Nat × BitReader) := do
  let (length, r) ← r.bits 3
  if length = 7 then
    let (more, r) ← r.ones
    return (length + more, r)
  else return (length, r)

/-- `count` code lengths. -/
def readLengths : (count : Nat) → BitReader → Except UnpackError (List Nat × BitReader)
  | 0, r => .ok ([], r)
  | count + 1, r => do
    let (length, r) ← readLength r
    let (rest, r) ← readLengths count r
    return (length :: rest, r)

/-- A table of at most `maxCount` codes whose number takes `width` bits. A table without codes is
    that of one symbol, which takes `width` bits too. -/
def readTable (width maxCount : Nat)
    (lengths : Nat → BitReader → Except UnpackError (List Nat × BitReader)) (r : BitReader) :
    Except UnpackError (CodeTree × BitReader) := do
  let (count, r) ← r.bits width
  if count = 0 then
    let (symbol, r) ← r.bits width
    return (.leaf symbol, r)
  else if maxCount < count then throw .damagedTable
  else
    let (lengths, r) ← lengths count r
    let tree ← CodeTree.ofLengths lengths
    return (tree, r)

/-- The lengths of `count` length codes. Behind the first three stands how many symbols, at most
    three, have no code there. -/
def lengthLengths (count : Nat) (r : BitReader) : Except UnpackError (List Nat × BitReader) := do
  let (first, r) ← readLengths (min 3 count) r
  let (gap, r) ← r.bits 2
  if count < 3 + gap then throw .damagedTable
  let (rest, r) ← readLengths (count - (3 + gap)) r
  return (first ++ List.replicate gap 0 ++ rest, r)

/-- A command length, and how often it stands again. The first three symbols of `tree` are runs of
    commands without a code; all others are a length greater by two. -/
def lengthRun (tree : CodeTree) (r : BitReader) :
    Except UnpackError ((Nat × Nat) × BitReader) := do
  let (symbol, r) ← tree.read r
  match symbol with
  | 0 => return ((0, 0), r)
  | 1 =>
    let (more, r) ← r.bits 4
    return ((0, more + 2), r)
  | 2 =>
    let (more, r) ← r.bits 9
    return ((0, more + 19), r)
  | length + 3 => return ((length + 1, 0), r)

/-- The lengths of `room` command codes. No run reaches beyond the last one. -/
def commandLengths (tree : CodeTree) (room : Nat) (r : BitReader) :
    Except UnpackError (List Nat × BitReader) := do
  if room = 0 then return ([], r)
  let ((length, again), r) ← lengthRun tree r
  if room < again + 1 then throw .damagedTable
  let (rest, r) ← commandLengths tree (room - (again + 1)) r
  return (List.replicate (again + 1) length ++ rest, r)
termination_by room
decreasing_by omega

/-- The codes of the commands and of the offsets of a block. -/
structure Tables where
  commands : CodeTree
  offsets : CodeTree

/-- The tables of a block. -/
def readTables (m : BlockMethod) (r : BitReader) : Except UnpackError (Tables × BitReader) := do
  let (lengths, r) ← readTable 5 maxLengthCodes lengthLengths r
  let (commands, r) ← readTable 9 maxCommands (commandLengths lengths) r
  let (offsets, r) ← readTable m.offsetWidth m.maxOffsets readLengths r
  return (⟨commands, offsets⟩, r)

/-! ### Commands -/

/-- The offset of a copy: its symbol is the number of its bits, of which the first is a one and not
    written. -/
def readOffset (offsets : CodeTree) (r : BitReader) : Except UnpackError (Nat × BitReader) := do
  let (width, r) ← offsets.read r
  match width with
  | 0 => return (0, r)
  | width + 1 => BitReader.bitsFrom 1 width r

/-- Carry out the commands of a block, `count` at most, until there is no room for output. -/
def runCommands (tables : Tables) : (count : Nat) → Output → BitReader →
    Except UnpackError (Output × BitReader)
  | 0, o, r => .ok (o, r)
  | count + 1, o, r => do
    if o.room = 0 then return (o, r)
    let (command, r) ← tables.commands.read r
    if command < 0x100 then runCommands tables count (o.push (UInt8.ofNat command)) r
    else
      let (offset, r) ← readOffset tables.offsets r
      runCommands tables count (o.copy offset (command - 0x100 + minCopy)) r

/-- Carry out blocks until there is no room for output. The number of commands before each block
    takes two bytes, so there are less than `blocks` blocks in as many bytes. -/
def runBlocks (m : BlockMethod) : (blocks : Nat) → Output → BitReader → Except UnpackError Output
  | 0, o, _ => if o.room = 0 then .ok o else .error .exhausted
  | blocks + 1, o, r => do
    if o.room = 0 then return o
    let (count, r) ← r.bits 16
    let (tables, r) ← m.readTables r
    let (o, r) ← runCommands tables count o r
    m.runBlocks blocks o r

/-- The first `size` bytes that `data` unpacks to. -/
def decode (m : BlockMethod) (data : Window) (size : Nat) : Except UnpackError ByteArray := do
  let output ← m.runBlocks data.size (.start m.history size) (.ofWindow data)
  return output.result

end BlockMethod

end Chiptune.Lha
