import Chiptune.Archive.Lha.AdaptiveCode
import Chiptune.Archive.Lha.CodeTree
import Chiptune.Archive.Lha.History

namespace Chiptune.Lha

/-!
# Packing with the adaptive code

The method `lh1` is a single run of commands in the adaptive code: a byte to put out, or the length
of a copy. The upper six bits of the offset of a copy have a fixed code, the lower six follow as
they are.
-/

namespace AdaptiveMethod

/-- The size of the history. -/
def history : Nat := 0x1000

/-- The shortest copy. -/
def minCopy : Nat := 3

/-- The lengths of the codes of the upper bits of offsets: short offsets have short codes. -/
def offsetLengths : List Nat :=
  List.replicate 1 3 ++ List.replicate 3 4 ++ List.replicate 8 5 ++ List.replicate 12 6 ++
    List.replicate 24 7 ++ List.replicate 16 8

/-- Carry out commands, `count` at most, until there is no room for output. -/
def runCommands (offsets : CodeTree) : (count : Nat) → AdaptiveCode → Output → BitReader →
    Except UnpackError Output
  | 0, _, o, _ => .ok o
  | count + 1, code, o, r => do
    if o.room = 0 then return o
    let (command, code, r) ← code.read r
    if command < 0x100 then runCommands offsets count code (o.push (UInt8.ofNat command)) r
    else
      let (upper, r) ← offsets.read r
      let (lower, r) ← r.bits 6
      runCommands offsets count code (o.copy (64 * upper + lower) (command - 0x100 + minCopy)) r

/-- The first `size` bytes that `data` unpacks to. A command puts out one byte at least, so there
    are not more commands than bytes. -/
def decode (data : Window) (size : Nat) : Except UnpackError ByteArray := do
  let offsets ← CodeTree.ofLengths offsetLengths
  let output ← runCommands offsets size .start (.start history size) (.ofWindow data)
  return output.result

end AdaptiveMethod

end Chiptune.Lha
