namespace Chiptune

/-!
# Windows on bytes

A `Window` is a stretch of a shared byte buffer. Containers nest, so a file, the entry of an
archive and the module inside that entry are all windows; taking a smaller one copies nothing.

* `Window.toList` — the bytes of a window as a list, the view in which windows are reasoned about;
* `Window.drop`, `Window.take`, `Window.sub?`, `Window.tail?` — smaller windows, which act on the
  view as `List.drop` and `List.take`;
* `Window.firstIndex` — the first occurrence of a byte.
-/

/-- The `size` bytes of `buffer` that start at `offset`. A buffer is a copy of bytes that are in
    memory already. The `2 ^ 64` addresses of a machine hold both, and the program with its stack, so
    a buffer has `2 ^ 63 - 2 ^ 15` bytes at most: places a little before and behind it are signed
    64-bit words as well. -/
structure Window where
  buffer : ByteArray
  offset : Nat
  size : Nat
  fits : offset + size ≤ buffer.size
  addressable : buffer.size ≤ 0x7fffffffffff8000

namespace Window

/-- The window without bytes. -/
def empty : Window := ⟨ByteArray.empty, 0, 0, Nat.zero_le _, by decide⟩

/-- The window on all of `bytes`. No machine holds more of them than a buffer has room for. -/
def ofByteArray (bytes : ByteArray) : Window :=
  if h : bytes.size ≤ 0x7fffffffffff8000 then ⟨bytes, 0, bytes.size, by omega, h⟩ else empty

/-- Whether the window has no bytes. -/
def isEmpty (w : Window) : Bool := w.size == 0

theorem size_le (w : Window) : w.size ≤ 0x7fffffffffff8000 :=
  Nat.le_trans (Nat.le_trans (Nat.le_add_left _ _) w.fits) w.addressable

theorem size_lt (w : Window) : w.size < 0x8000000000000000 :=
  Nat.lt_of_le_of_lt w.size_le (by decide)

/-- The byte at `i`, for an index inside the window. -/
def get (w : Window) (i : Nat) (h : i < w.size) : UInt8 :=
  have : w.offset + i < w.buffer.size := by have := w.fits; omega
  w.buffer[w.offset + i]

instance : GetElem? Window Nat UInt8 (fun w i => i < w.size) where
  getElem := get
  getElem? w i := if h : i < w.size then some (w.get i h) else none

/-! ### The list view -/

/-- The bytes as a buffer of their own. -/
def toByteArray (w : Window) : ByteArray := w.buffer.extract w.offset (w.offset + w.size)

/-- The bytes, first to last. -/
def toList (w : Window) : List UInt8 := w.toByteArray.data.toList

theorem toList_eq (w : Window) :
    w.toList = (w.buffer.data.toList.drop w.offset).take w.size := by
  simp [toList, toByteArray]

@[simp] theorem length_toList (w : Window) : w.toList.length = w.size := by
  have := w.fits
  simp only [toList, toByteArray, Array.length_toList, ByteArray.size_data, ByteArray.size_extract]
  omega

/-! ### Smaller windows -/

/-- The window without its first `n` bytes. -/
def drop (w : Window) (n : Nat) : Window where
  buffer := w.buffer
  offset := w.offset + min n w.size
  size := w.size - min n w.size
  fits := by have := w.fits; omega
  addressable := w.addressable

/-- The first `n` bytes of the window, or all of it when there are fewer. -/
def take (w : Window) (n : Nat) : Window where
  buffer := w.buffer
  offset := w.offset
  size := min n w.size
  fits := by have := w.fits; omega
  addressable := w.addressable

@[simp] theorem size_drop (w : Window) (n : Nat) : (w.drop n).size = w.size - n := by
  simp only [drop]; omega

@[simp] theorem size_take (w : Window) (n : Nat) : (w.take n).size = min n w.size := rfl

@[simp] theorem toList_drop (w : Window) (n : Nat) : (w.drop n).toList = w.toList.drop n := by
  simp only [toList_eq, drop, List.drop_take, List.drop_drop]
  by_cases h : n ≤ w.size
  · rw [Nat.min_eq_left h]
  · have h' : w.size ≤ n := by omega
    rw [Nat.min_eq_right h', Nat.sub_self, Nat.sub_eq_zero_of_le h', List.take_zero, List.take_zero]

@[simp] theorem toList_take (w : Window) (n : Nat) : (w.take n).toList = w.toList.take n := by
  simp only [toList_eq, take, List.take_take]

/-- The `size` bytes from `offset` on, cut off at the end of the window. There is no such window
    when it would be empty. -/
def sub? (w : Window) (offset size : Nat) : Option Window :=
  if offset < w.size ∧ size ≠ 0 then some ((w.drop offset).take size) else none

/-- What follows the first `offset` bytes, unless that is nothing. -/
def tail? (w : Window) (offset : Nat) : Option Window :=
  if offset < w.size then some (w.drop offset) else none

/-- The `size` bytes from `offset` on, when all of them are there. -/
def exactly? (w : Window) (offset size : Nat) : Option Window :=
  if offset + size ≤ w.size then some ((w.drop offset).take size) else none

/-! ### Reading -/

/-- The bytes of an ASCII text. -/
def ascii (text : String) : List UInt8 := text.toList.map fun c => UInt8.ofNat c.toNat

/-- Whether the bytes from `offset` on begin with `bytes`. -/
def holdsAt (w : Window) (offset : Nat) : List UInt8 → Bool
  | [] => true
  | b :: rest => w[offset]? == some b && w.holdsAt (offset + 1) rest

/-- The first index from `start` on, below `stop`, at which `byte` stands, or `stop`. -/
def firstIndex (w : Window) (byte : UInt8) (stop start : Nat) : Nat :=
  if start < stop then
    if w[start]? == some byte then start else w.firstIndex byte stop (start + 1)
  else stop
termination_by stop - start

theorem le_firstIndex (w : Window) (byte : UInt8) (stop start : Nat) (h : start ≤ stop) :
    start ≤ w.firstIndex byte stop start := by
  fun_induction firstIndex w byte stop start with
  | case1 => exact Nat.le_refl _
  | case2 start hlt _ ih => have := ih hlt; omega
  | case3 => exact h

/-- Combine the bytes from left to right. -/
def foldl {β : Type} (f : β → UInt8 → β) (init : β) (w : Window) : β :=
  go 0 init
where
  /-- The same from index `i` on. -/
  go (i : Nat) (acc : β) : β :=
    if h : i < w.size then go (i + 1) (f acc (w.get i h)) else acc
  termination_by w.size - i

/-- Where the window lies, for diagnostics. -/
def describe (w : Window) : String :=
  s!"Binary \x7b offset: {w.offset}, size: {w.size} \x7d"

end Window

end Chiptune
