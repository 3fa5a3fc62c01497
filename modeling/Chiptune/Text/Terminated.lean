import Chiptune.Text.Utf8

namespace Chiptune.Window

/-!
# Texts that end with a zero

Old files keep texts of any length in front of a zero byte.

* `Window.terminated?` — a text that has its zero;
* `Window.textFrom` — a text that may also end with the data.
-/

/-- The offset of the first zero from `start` on, or the size of the window. -/
def zeroFrom (w : Window) (start : Nat) : Nat := w.firstIndex 0 w.size start

/-- The text from `start` to the first zero or the end, and the offset behind that. -/
def textFrom (w : Window) (start : Nat) : String × Nat :=
  let length := w.zeroFrom start - start
  (((w.drop start).take length).text, start + length + 1)

theorem lt_textFrom (w : Window) (start : Nat) : start < (w.textFrom start).2 := by
  simp only [textFrom]; omega

/-- The text from `start` to the first zero, and the offset behind the zero, when there is one. -/
def terminated? (w : Window) (start : Nat) : Option (String × Nat) :=
  if w.zeroFrom start < w.size then some (w.textFrom start) else none

end Chiptune.Window
