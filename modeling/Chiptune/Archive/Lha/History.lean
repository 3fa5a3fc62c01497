import Chiptune.Bytes.Window

namespace Chiptune.Lha

/-!
# Output with a history

All methods copy bytes that were put out before. At the start the history is filled with blanks, so
copies may reach back before the first byte.
-/

/-- `history` blanks and the bytes put out behind them, up to `limit` bytes. -/
structure Output where
  history : Nat
  limit : Nat
  bytes : ByteArray

namespace Output

/-- No output yet. -/
def start (history limit : Nat) : Output :=
  ⟨history, limit, ByteArray.mk (Array.replicate history 0x20)⟩

/-- The number of bytes that may still be put out. -/
def room (o : Output) : Nat := o.history + o.limit - o.bytes.size

/-- Put out a byte. -/
def push (o : Output) (b : UInt8) : Output := { o with bytes := o.bytes.push b }

/-- Put out `count` bytes more, each a copy of the byte `distance` bytes before it. -/
def copyFrom (distance : Nat) : (count : Nat) → Output → Output
  | 0, o => o
  | count + 1, o => copyFrom distance count (o.push (o.bytes[o.bytes.size - distance]?.getD 0x20))

/-- Put out `count` bytes, or as many as there is room for, copied from behind `offset` bytes. The
    offset counts in a ring of the size of the history. -/
def copy (o : Output) (offset count : Nat) : Output :=
  copyFrom (offset % o.history + 1) (min count o.room) o

/-- The bytes that were put out. -/
def result (o : Output) : ByteArray := o.bytes.extract o.history o.bytes.size

end Output

end Chiptune.Lha
