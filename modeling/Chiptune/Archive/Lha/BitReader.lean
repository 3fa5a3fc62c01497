import Chiptune.Bytes.Window
import Chiptune.DecodeError

namespace Chiptune.Lha

/-!
# Bits of a packed member

A `BitReader` gives the bits of a window one after the other, the most significant bit of each byte
first.
-/

/-- A window and the number of its bits that were read. -/
structure BitReader where
  data : Window
  position : Nat

namespace BitReader

/-- The reader at the start of a window. -/
def ofWindow (data : Window) : BitReader := ⟨data, 0⟩

/-- The number of unread bits. -/
def left (r : BitReader) : Nat := 8 * r.data.size - r.position

/-- The next bit. -/
def bit (r : BitReader) : Except UnpackError (Bool × BitReader) :=
  match r.data[r.position / 8]? with
  | some b => .ok (b.toNat.testBit (7 - r.position % 8), { r with position := r.position + 1 })
  | none => .error .exhausted

/-- A number of `count` bits, most significant bit first, behind the bits of `value`. -/
def bitsFrom (value : Nat) : (count : Nat) → BitReader → Except UnpackError (Nat × BitReader)
  | 0, r => .ok (value, r)
  | count + 1, r => do
    let (bit, r) ← r.bit
    bitsFrom (2 * value + bit.toNat) count r

/-- A number of `count` bits, most significant bit first. -/
def bits (count : Nat) (r : BitReader) : Except UnpackError (Nat × BitReader) :=
  bitsFrom 0 count r

/-- `found` and the number of ones before the next zero. No more than `limit` bits are read, and
    there have to be so many ones then. -/
def onesFrom (found : Nat) : (limit : Nat) → BitReader → Except UnpackError (Nat × BitReader)
  | 0, _ => .error .exhausted
  | limit + 1, r => do
    let (bit, r) ← r.bit
    if bit then onesFrom (found + 1) limit r else return (found, r)

/-- The number of ones before the next zero. -/
def ones (r : BitReader) : Except UnpackError (Nat × BitReader) := onesFrom 0 (r.left + 1) r

end BitReader

end Chiptune.Lha
