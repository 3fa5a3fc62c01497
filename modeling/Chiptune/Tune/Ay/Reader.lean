import Chiptune.Bytes.Number
import Chiptune.DecodeError
import Chiptune.Text.Terminated

namespace Chiptune.Ay

/-!
# Reading with an extent

The structures of an AY file refer to each other by pointers, and nothing states the size of the
file: it reaches as far as its structures do. A `Reader` therefore gives a value together with an
extent, the offset behind the last byte that it needed. The extent of two readings is the greater of
both.
-/

/-- A reading of a file: a value and the extent of what was read for it. -/
def Reader (α : Type) : Type := Window → Except DecodeError (α × Nat)

instance : Monad Reader where
  pure a := fun _ => .ok (a, 0)
  bind read next := fun w => do
    let (a, m) ← read w
    let (b, n) ← next a w
    return (b, max m n)

namespace Reader

/-- Refuse the file. -/
def fail {α : Type} (fault : DecodeError) : Reader α := fun _ => .error fault

/-- Need `size` bytes at `offset`. -/
def need (offset size : Nat) : Reader Unit := fun w =>
  if offset + size ≤ w.size then .ok ((), offset + size) else .error .truncated

/-- The bytes from `start` on are used, `size` of them or as many as there are. -/
def span (start size : Nat) : Reader Unit := fun w => .ok ((), start + min size (w.size - start))

/-- The byte at `offset`. -/
def byte (offset : Nat) : Reader UInt8 := fun w =>
  match w[offset]? with
  | some b => .ok (b, offset + 1)
  | none => .error .truncated

/-- The 16-bit number at `offset`, high byte first. -/
def word (offset : Nat) : Reader Nat := fun w =>
  match w.be16? offset with
  | some n => .ok (n, offset + 2)
  | none => .error .truncated

/-- Whether the file begins with `bytes`. -/
def beginsWith (bytes : List UInt8) : Reader Bool := fun w => .ok (w.holdsAt 0 bytes, 0)

/-- The text from `start` to the next zero. -/
def text (start : Nat) : Reader String := fun w =>
  match w.terminated? start with
  | some (s, stop) => .ok (s, stop)
  | none => .error (.unterminatedText start)

/-! ### Pointers -/

/-- The offset that the pointer at `origin` leads to: a signed 16-bit distance from the pointer
    itself, which is zero when the pointer leads nowhere. -/
def pointer? (origin : Nat) : Reader (Option Nat) := do
  let distance ← word origin
  if distance = 0 then return none
  let target : Int := origin + (distance : Int).bmod UInt16.size
  fun w =>
    if 0 ≤ target ∧ target < w.size then .ok (some target.toNat, 0)
    else .error (.strayPointer origin)

/-- The offset that the pointer at `origin` leads to, which has to lead somewhere. -/
def pointer (origin : Nat) : Reader Nat := do
  match ← pointer? origin with
  | some target => return target
  | none => fail (.strayPointer origin)

/-- A part of the file that the pointer at `origin` leads to, when it leads somewhere. -/
def optional (origin : Nat) (part : Nat → Reader Unit) : Reader Unit := do
  match ← pointer? origin with
  | some start => part start
  | none => return ()

/-- The text that the pointer at `origin` leads to, or the empty text. -/
def textAt (origin : Nat) : Reader String := do
  match ← pointer? origin with
  | some start => text start
  | none => return ""

end Reader

end Chiptune.Ay
