import Chiptune.Bytes.Window

namespace Chiptune

/-!
# Numbers in bytes

Fixed-width numbers as file formats store them: `valueBE` and `valueLE` give the value of a byte
list with the most or the least significant byte first, and `Window.be16?` and its siblings read
such a number at an offset, when all of its bytes are inside the window.
-/

/-- The value of `bytes` with the most significant byte first. -/
def valueBE (bytes : List UInt8) : Nat :=
  bytes.foldl (fun value b => 256 * value + b.toNat) 0

/-- The value of `bytes` with the least significant byte first. -/
def valueLE (bytes : List UInt8) : Nat :=
  bytes.foldr (fun b value => b.toNat + 256 * value) 0

namespace Window

/-- The `count` bytes at `offset` as a list, when all of them are there. -/
def bytes? (w : Window) (offset : Nat) : Nat → Option (List UInt8)
  | 0 => some []
  | count + 1 => do
    let b ← w[offset]?
    let rest ← w.bytes? (offset + 1) count
    return b :: rest

theorem length_of_bytes? {w : Window} {offset count : Nat} {bytes : List UInt8}
    (h : w.bytes? offset count = some bytes) : bytes.length = count := by
  induction count generalizing offset bytes with
  | zero =>
    cases h
    rfl
  | succ count ih =>
    obtain ⟨b, -, htail⟩ := Option.bind_eq_some_iff.1 h
    obtain ⟨rest, hrest, hbytes⟩ := Option.bind_eq_some_iff.1 htail
    cases hbytes
    rw [List.length_cons, ih hrest]

/-- The 16-bit number at `offset`, high byte first. -/
def be16? (w : Window) (offset : Nat) : Option Nat := (w.bytes? offset 2).map valueBE

/-- The 32-bit number at `offset`, high byte first. -/
def be32? (w : Window) (offset : Nat) : Option Nat := (w.bytes? offset 4).map valueBE

/-- The 16-bit number at `offset`, low byte first. -/
def le16? (w : Window) (offset : Nat) : Option Nat := (w.bytes? offset 2).map valueLE

/-- The 32-bit number at `offset`, low byte first. -/
def le32? (w : Window) (offset : Nat) : Option Nat := (w.bytes? offset 4).map valueLE

end Window

end Chiptune
