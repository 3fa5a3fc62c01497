import Chiptune.Pattern.Parser

namespace Chiptune

/-!
# Signatures of formats

A `Signature` is a pattern with the least amount of data that a format needs. Where it does not
match, `Signature.nextMatch` says where it can match next, so a scan need not try every offset.

* `Signature.detect` — the outcome of one attempt;
* `Signature.scan` — all attempts of a scan that goes from match to match.
-/

/-- A pattern and a least size, which is not below the length of the pattern. -/
structure Signature where
  pattern : Pattern
  minSize : Nat
  length_le_minSize : pattern.length ≤ minSize

/-- The outcome of an attempt: `size` bytes that match, or the offset of the next candidate. -/
inductive Probe where
  | hit (size : Nat)
  | miss (next : Nat)
deriving DecidableEq, Repr

/-- How far a scan goes on after an attempt. -/
def Probe.step : Probe → Nat
  | hit size => max 1 size
  | miss next => max 1 next

namespace Signature

/-- The signature of `pattern` in data of `minSize` bytes at least, or of the length of the
    pattern. -/
def ofPattern (pattern : Pattern) (minSize : Nat) : Signature :=
  ⟨pattern, max minSize pattern.length, Nat.le_max_right ..⟩

/-- The signature of the pattern that `text` describes. -/
def compile (text : String) (minSize : Nat) : Except SyntaxError Signature := do
  let pattern ← Pattern.compile text
  return ofPattern pattern minSize

/-- Whether there is enough data and the pattern matches its start. -/
def matchesStart (s : Signature) (w : Window) : Bool :=
  s.minSize ≤ w.size && s.pattern.matchesStart w

/-- The first offset behind the start where the pattern matches with enough data behind it, or the
    size of the data. -/
def nextMatch (s : Signature) (w : Window) : Nat :=
  if w.size ≤ 1 then w.size
  else
    let found := 1 + s.pattern.search (w.drop 1)
    if found < w.size ∧ s.minSize ≤ w.size - found then found else w.size

/-- One attempt at the start of the data. -/
def detect (s : Signature) (w : Window) : Probe :=
  if s.matchesStart w then .hit s.pattern.length else .miss (s.nextMatch w)

/-- The attempts of a scan from `offset` on, each with its offset. A match is skipped as a whole. -/
def scanFrom (s : Signature) (w : Window) (offset : Nat) : List (Nat × Probe) :=
  if offset < w.size then
    let probe := s.detect (w.drop offset)
    (offset, probe) :: s.scanFrom w (offset + probe.step)
  else []
termination_by w.size - offset
decreasing_by
  have : 1 ≤ (s.detect (w.drop offset)).step := by
    simp only [Probe.step]; split <;> exact Nat.le_max_left ..
  omega

/-- The attempts of a scan of the data. -/
def scan (s : Signature) (w : Window) : List (Nat × Probe) := s.scanFrom w 0

end Signature

end Chiptune
