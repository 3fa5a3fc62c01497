import Chiptune.Proofs.Extents
import Chiptune.Proofs.Outcomes

namespace Chiptune

/-!
# Guarded steps

The formats are defined on natural numbers, and a byte that is looked up may be missing. A machine
has words of 64 bits and no missing bytes: there a program fails when an index, a slice or the
result of an operation is out of range, and a loop need not end. `Guarded` computations are programs
in this sense. Every step that can fail has its guard, and every loop is a `Guarded.Loop`, whose
number of rounds nothing bounds. What cannot fail, such as the comparison of a signature, is taken
from the definitions as it is.

* `Guarded.index`, `Guarded.slice`, `Guarded.add` and their siblings — the steps that can fail;
* `Guarded.Loop.run_eq` — a loop is its first round and what follows it;
* `Guarded.outcome` — a computation that ends, without a fault, in a result or a refusal;
* `Guarded.Yields` — steps that come to such a computation, and what holds of their result.
-/

theorem Window.take_min (w : Window) (n : Nat) : w.take (min n w.size) = w.take n := by
  simp only [take, Nat.min_assoc, Nat.min_self]

theorem Window.getElem?_of_lt (w : Window) {i : Nat} (h : i < w.size) : w[i]? = some (w.get i h) :=
  dif_pos h

theorem Window.take_size (w : Window) : w.take w.size = w := by
  simp only [take, Nat.min_self]

theorem Window.exists_bytes? {w : Window} {offset count : Nat} (h : offset + count ≤ w.size) :
    ∃ bytes, w.bytes? offset count = some bytes := by
  induction count generalizing offset with
  | zero => exact ⟨[], rfl⟩
  | succ count ih =>
    have hlt : offset < w.size := by omega
    obtain ⟨rest, hrest⟩ := ih (show offset + 1 + count ≤ w.size by omega)
    refine ⟨w.get offset hlt :: rest, ?_⟩
    rw [bytes?, w.getElem?_of_lt hlt, hrest]
    rfl

theorem Window.bytes?_eq_none {w : Window} {offset count : Nat} (hcount : 0 < count)
    (h : w.size < offset + count) : w.bytes? offset count = none := by
  cases hbytes : w.bytes? offset count with
  | none => rfl
  | some bytes =>
    have hle := add_le_size_of_bytes? hcount hbytes
    omega

theorem Window.bytes?_drop (w : Window) (n offset count : Nat) :
    (w.drop n).bytes? offset count = w.bytes? (n + offset) count := by
  induction count generalizing offset with
  | zero => rfl
  | succ count ih => rw [bytes?, bytes?, getElem?_drop, ih, Nat.add_assoc]

theorem Window.holdsAt_drop (w : Window) (n offset : Nat) (bytes : List UInt8) :
    (w.drop n).holdsAt offset bytes = w.holdsAt (n + offset) bytes := by
  induction bytes generalizing offset with
  | nil => rfl
  | cons b rest ih => rw [holdsAt, holdsAt, getElem?_drop, ih, Nat.add_assoc]

theorem Window.firstIndex_le {w : Window} {byte : UInt8} {stop start : Nat} :
    w.firstIndex byte stop start ≤ stop := by
  fun_induction firstIndex w byte stop start with
  | case1 start hlt => exact Nat.le_of_lt hlt
  | case2 start hlt hbyte ih => exact ih
  | case3 => exact Nat.le_refl _

/-- The first place of a byte in the rest of a window. -/
theorem Window.firstIndex_drop {w : Window} {byte : UInt8} {n start : Nat} :
    (w.drop n).firstIndex byte (w.size - n) start = w.firstIndex byte w.size (n + start) - n := by
  fun_induction firstIndex (w.drop n) byte (w.size - n) start with
  | case1 start hlt hbyte =>
    rw [firstIndex, if_pos (by omega), ← getElem?_drop, if_pos hbyte, Nat.add_sub_cancel_left]
  | case2 start hlt hbyte ih =>
    have hnext : w.firstIndex byte w.size (n + start)
        = w.firstIndex byte w.size (n + (start + 1)) := by
      rw [firstIndex, if_pos (by omega), ← getElem?_drop, if_neg hbyte, Nat.add_assoc]
    rw [ih, hnext]
  | case3 start hge =>
    rw [firstIndex, if_neg (by omega)]

theorem Window.zeroFrom_drop (w : Window) (start : Nat) :
    (w.drop start).zeroFrom 0 = w.zeroFrom start - start := by
  rw [zeroFrom, size_drop]
  exact firstIndex_drop

/-! ### Computations -/

/-- What goes wrong in a step. -/
inductive Fault where
  /-- An index is not below the number of elements. -/
  | index
  /-- A slice reaches beyond the data, or ends before it begins. -/
  | slice
  /-- A sum or a product is no word of its width. -/
  | overflow
  /-- A number is taken from a smaller one. -/
  | underflow
deriving DecidableEq, Repr

/-- Why a computation stops without a result. -/
inductive Stop (ε : Type) where
  | fault (fault : Fault)
  | refusal (reason : ε)

/-- A computation that may be refused, may go wrong, and may have no end: then it is `none`. -/
abbrev Guarded (ε α : Type) : Type := ExceptT (Stop ε) Option α

namespace Guarded

variable {ε ε' α β : Type}

/-- Go wrong. -/
def fail (fault : Fault) : Guarded ε α := throw (.fault fault)

/-- Refuse the data. -/
def refuse (reason : ε) : Guarded ε α := throw (.refusal reason)

/-- A computation that ends without a fault. -/
def outcome (y : Except ε α) : Guarded ε α := some (y.mapError .refusal)

/-- Whether a computation has a result. A refusal is an answer too. -/
def succeeds : Guarded ε α → Guarded ε' Bool
  | some (.ok _) => return true
  | some (.error (.refusal _)) => return false
  | some (.error (.fault fault)) => fail fault
  | none => none

/-- A check by signature, and by reading what has the signature. -/
def admits (isSigned : Bool) (x : Guarded ε α) : Guarded ε' Bool :=
  if isSigned then succeeds x else return false

/-- The same computation with another name for its refusals. -/
def mapRefusal (f : ε → ε') : Guarded ε α → Guarded ε' α
  | some (.ok a) => return a
  | some (.error (.refusal reason)) => refuse (f reason)
  | some (.error (.fault fault)) => fail fault
  | none => none

/-! ### Steps -/

/-- The number `n`, as a word below `bound`. -/
def word (bound n : Nat) : Guarded ε Nat := if n < bound then return n else fail .overflow

/-- The sum of two words of 64 bits. -/
def add (m n : Nat) : Guarded ε Nat := word UInt64.size (m + n)

/-- The product of two words of 64 bits. -/
def mul (m n : Nat) : Guarded ε Nat := word UInt64.size (m * n)

/-- The number `n`, as a signed word of 64 bits. -/
def signed (n : Int) : Guarded ε Int :=
  if -0x8000000000000000 ≤ n ∧ n < 0x8000000000000000 then return n else fail .overflow

/-- The difference of two words. -/
def sub (m n : Nat) : Guarded ε Nat := if n ≤ m then return m - n else fail .underflow

/-- The sum of `total` and all of `numbers`, in words below `bound`. -/
def sum (bound : Nat) : (total : Nat) → (numbers : List Nat) → Guarded ε Nat
  | total, [] => return total
  | total, n :: rest => do
    let total ← word bound (total + n)
    sum bound total rest

/-- The element at index `i`. -/
def index {γ : Type} {valid : γ → Nat → Prop} [GetElem? γ Nat α valid] (xs : γ) (i : Nat) :
    Guarded ε α :=
  match xs[i]? with
  | some a => return a
  | none => fail .index

/-- The bytes with `b` at index `i`. -/
def write (bytes : ByteArray) (i : Nat) (b : UInt8) : Guarded ε ByteArray :=
  if i < bytes.size then return bytes.set! i b else fail .index

/-- The bytes from `start` up to `stop`. -/
def slice (w : Window) (start stop : Nat) : Guarded ε Window :=
  if start ≤ stop ∧ stop ≤ w.size then return (w.drop start).take (stop - start) else fail .slice

/-- The bytes at the indexes `offset + first`, `offset + (first + 1)` and so on, `count` of them. -/
def bytesFrom (w : Window) (offset first : Nat) : (count : Nat) → Guarded ε (List UInt8)
  | 0 => return []
  | count + 1 => do
    let i ← add offset first
    let b ← index w i
    let rest ← bytesFrom w offset (first + 1) count
    return b :: rest

/-- The number of `width` bytes at `offset`, high byte first. -/
def bigEndian (w : Window) (offset width : Nat) : Guarded ε Nat := do
  let bytes ← bytesFrom w offset 0 width
  return valueBE bytes

/-- The number of `width` bytes at `offset`, high byte first, when all of them are there. -/
def bigEndian? (w : Window) (offset width : Nat) : Guarded ε (Option Nat) := do
  let _ ← add offset width
  match w.exactly? offset width with
  | some bytes =>
    let value ← bigEndian bytes 0 width
    return some value
  | none => return none

/-- The number of `width` bytes at `offset`, low byte first. -/
def littleEndian (w : Window) (offset width : Nat) : Guarded ε Nat := do
  let bytes ← bytesFrom w offset 0 width
  return valueLE bytes

/-- The bytes of a window, as a slice of its buffer. -/
def view (w : Window) : Guarded ε Window := do
  let stop ← add w.offset w.size
  if stop ≤ w.buffer.size then return w else fail .slice

/-- The `size` bytes from `offset` on, as a window on the same buffer. -/
def part? (w : Window) (offset size : Nat) : Guarded ε (Option Window) := do
  if w.size ≤ offset ∨ size = 0 then return none
  let room ← sub w.size offset
  let _ ← add w.offset offset
  return some ((w.drop offset).take (min size room))

/-- The text of the first `length` bytes of `tail`, which begins at `start`, and the offset behind
    the byte that ends it. -/
def textTo (tail : Window) (start length : Nat) : Guarded ε (String × Nat) := do
  let bytes ← slice tail 0 length
  let stop ← add start length
  let next ← add stop 1
  return (bytes.text, next)

/-- The same for a text that ends with a zero, when there is one. -/
def terminated? (tail : Window) (start : Nat) : Guarded ε (Option (String × Nat)) := do
  let length := tail.zeroFrom 0
  if length = tail.size then return none
  let found ← textTo tail start length
  return some found

theorem ite_bind {c : Prop} [Decidable c] (x y : Guarded ε α) (f : α → Guarded ε β) :
    (if c then x else y) >>= f = if c then x >>= f else y >>= f :=
  apply_ite (· >>= f) ..

/-! ### Loops -/

/-- What a round of a loop comes to. -/
inductive Round (σ α : Type) where
  /-- The loop is left with a result. -/
  | done (result : α)
  /-- There is another round. -/
  | again (state : σ)

/-- A loop with a state, and one round of it. -/
structure Loop (ε σ α : Type) where
  round : σ → Guarded ε (Round σ α)

namespace Loop

variable {σ : Type}

/-- Round after round of a loop, until one leaves it. Nothing bounds their number. -/
def run (l : Loop ε σ α) (s : σ) : Guarded ε α := do
  match ← l.round s with
  | .done result => return result
  | .again s => l |>.run s
partial_fixpoint

/-- What follows a round. -/
def behind (l : Loop ε σ α) : Round σ α → Guarded ε α
  | .done result => return result
  | .again s => l.run s

theorem run_eq (l : Loop ε σ α) (s : σ) : l.run s = l.round s >>= l.behind := by
  rw [run]
  rfl

end Loop

/-! ### Computations that end -/

/-- Whether the steps `x` end without a fault and come to `y`, and `P` holds of their result. -/
structure Yields (x : Guarded ε α) (y : Except ε α) (P : α → Prop) : Prop where
  eq : x = outcome y
  post : ∀ a, y = .ok a → P a

variable {x : Guarded ε α} {y : Except ε α} {P P' : α → Prop} {Q : β → Prop}
  {f : α → Guarded ε β} {g : α → Except ε β}

theorem yields_pure {a : α} (h : P a) : Yields (pure a : Guarded ε α) (.ok a) P := by
  refine ⟨rfl, fun b hb => ?_⟩
  cases hb
  exact h

theorem yields_refuse (reason : ε) : Yields (refuse reason) (.error reason) P :=
  ⟨rfl, fun _ h => by cases h⟩

theorem Yields.mono (h : Yields x y P) (hP : ∀ a, P a → P' a) : Yields x y P' :=
  ⟨h.eq, fun a ha => hP a (h.post a ha)⟩

theorem Yields.bind (h : Yields x y P)
    (hnext : ∀ a, y = .ok a → P a → Yields (f a) (g a) Q) : Yields (x >>= f) (y >>= g) Q := by
  obtain ⟨rfl, hpost⟩ := h
  cases y with
  | error reason => exact yields_refuse reason
  | ok a => exact hnext a rfl (hpost a rfl)

/-- A step that gives `a` whatever happens goes unnoticed. -/
theorem Yields.step {y : Except ε β} {a : α} (hstep : x = pure a) (h : Yields (f a) y Q) :
    Yields (x >>= f) y Q := by
  rw [hstep]
  exact h

/-- A condition under which the data is refused, and what comes behind it. Both sides have the form
    that a test without an alternative takes inside `do`. -/
theorem yields_unless {c : Prop} [Decidable c] {reason : ε} {f : Unit → Guarded ε α}
    {g : Unit → Except ε α} (h : ¬c → Yields (f ()) (g ()) P) :
    Yields (if c then refuse reason >>= fun u => f u else f ())
      (if c then throw reason >>= fun u => g u else g ()) P := by
  by_cases hc : c
  · rw [if_pos hc, if_pos hc]
    exact yields_refuse reason
  · rw [if_neg hc, if_neg hc]
    exact h hc

theorem Yields.succeeds (h : Yields x y P) : succeeds x = (pure y.isOk : Guarded ε' Bool) := by
  rw [h.eq]
  cases y with
  | error reason => rfl
  | ok a => rfl

theorem Yields.admits (isSigned : Bool) (h : Yields x y P) :
    admits isSigned x = (pure (isSigned && y.isOk) : Guarded ε' Bool) := by
  cases isSigned with
  | false => rfl
  | true => exact h.succeeds

theorem Yields.mapRefusal {f : ε → ε'} (h : Yields x y P) :
    Yields (mapRefusal f x) (y.mapError f) P := by
  obtain ⟨rfl, hpost⟩ := h
  cases y with
  | error reason => exact yields_refuse (f reason)
  | ok a => exact yields_pure (hpost a rfl)

/-! ### Steps in range -/

theorem word_of_lt {bound n : Nat} (h : n < bound) : (word bound n : Guarded ε Nat) = pure n :=
  if_pos h

theorem add_of_lt {m n : Nat} (h : m + n < 0x10000000000000000) :
    (add m n : Guarded ε Nat) = pure (m + n) := if_pos h

theorem mul_of_lt {m n : Nat} (h : m * n < 0x10000000000000000) :
    (mul m n : Guarded ε Nat) = pure (m * n) := if_pos h

theorem sub_of_le {m n : Nat} (h : n ≤ m) : (sub m n : Guarded ε Nat) = pure (m - n) := if_pos h

theorem signed_of_lt {n : Int} (hlow : -0x8000000000000000 ≤ n) (hhigh : n < 0x8000000000000000) :
    (signed n : Guarded ε Int) = pure n := if_pos ⟨hlow, hhigh⟩

theorem sum_of_lt {bound total : Nat} {numbers : List Nat} (h : total + numbers.sum < bound) :
    (sum bound total numbers : Guarded ε Nat) = pure (total + numbers.sum) := by
  induction numbers generalizing total with
  | nil => rfl
  | cons n rest ih =>
    rw [List.sum_cons] at h ⊢
    rw [sum, word_of_lt (by omega), ← Nat.add_assoc]
    exact ih (by omega)

theorem index_of_eq_some {γ : Type} {valid : γ → Nat → Prop} [GetElem? γ Nat α valid] {xs : γ}
    {i : Nat} {a : α} (h : xs[i]? = some a) : (index xs i : Guarded ε α) = pure a := by
  rw [index, h]

theorem slice_of_le {w : Window} {start stop : Nat} (hstart : start ≤ stop)
    (hstop : stop ≤ w.size) :
    (slice w start stop : Guarded ε Window) = pure ((w.drop start).take (stop - start)) :=
  if_pos ⟨hstart, hstop⟩

theorem slice_zero {w : Window} {stop : Nat} (h : stop ≤ w.size) :
    (slice w 0 stop : Guarded ε Window) = pure (w.take stop) := by
  rw [slice_of_le (Nat.zero_le _) h, Window.drop_zero, Nat.sub_zero]

theorem bytesFrom_of_bytes? {w : Window} {offset first count : Nat} {bytes : List UInt8}
    (h : w.bytes? (offset + first) count = some bytes) :
    (bytesFrom w offset first count : Guarded ε (List UInt8)) = pure bytes := by
  induction count generalizing first bytes with
  | zero =>
    cases h
    rfl
  | succ count ih =>
    obtain ⟨b, hb, htail⟩ := Option.bind_eq_some_iff.1 h
    obtain ⟨rest, hrest, hbytes⟩ := Option.bind_eq_some_iff.1 htail
    cases hbytes
    have hlt := Window.lt_size_of_getElem? hb
    have hsize := w.size_lt
    rw [bytesFrom, add_of_lt (by omega), pure_bind,
      index_of_eq_some hb, pure_bind, ih hrest, pure_bind]

theorem bigEndian_of_bytes? {w : Window} {offset width : Nat} {bytes : List UInt8}
    (h : w.bytes? offset width = some bytes) :
    (bigEndian w offset width : Guarded ε Nat) = pure (valueBE bytes) := by
  rw [bigEndian, bytesFrom_of_bytes? h, pure_bind]

theorem bigEndian?_eq {w : Window} {offset width : Nat} (hwidth : 0 < width)
    (h : offset + width < 0x10000000000000000) :
    (bigEndian? w offset width : Guarded ε (Option Nat))
      = pure ((w.bytes? offset width).map valueBE) := by
  rw [bigEndian?, add_of_lt h, pure_bind, Window.exactly?]
  by_cases hle : offset + width ≤ w.size
  · obtain ⟨bytes, hbytes⟩ := Window.exists_bytes? hle
    have hpart : ((w.drop offset).take width).bytes? 0 width = some bytes := by
      rw [Window.bytes?_take _ (by omega), Window.bytes?_drop, Nat.add_zero, hbytes]
    rw [if_pos hle, hbytes]
    show bigEndian _ 0 width >>= _ = _
    rw [bigEndian_of_bytes? hpart, pure_bind, Option.map_some]
  · rw [if_neg hle, Window.bytes?_eq_none hwidth (Nat.lt_of_not_le hle)]
    rfl

theorem littleEndian_of_bytes? {w : Window} {offset width : Nat} {bytes : List UInt8}
    (h : w.bytes? offset width = some bytes) :
    (littleEndian w offset width : Guarded ε Nat) = pure (valueLE bytes) := by
  rw [littleEndian, bytesFrom_of_bytes? h, pure_bind]

/-- A window carries the proof that its bytes are in its buffer. -/
theorem view_eq (w : Window) : (view w : Guarded ε Window) = pure w := by
  have hfits := w.fits
  have hsize := w.addressable
  rw [view, add_of_lt (by omega), pure_bind, if_pos hfits]

theorem part?_eq (w : Window) (offset size : Nat) :
    (part? w offset size : Guarded ε (Option Window)) = pure (w.sub? offset size) := by
  have hfits := w.fits
  have haddressable := w.addressable
  by_cases hnone : w.size ≤ offset ∨ size = 0
  · have hsub : ¬(offset < w.size ∧ size ≠ 0) := by omega
    rw [part?, if_pos hnone, Window.sub?, if_neg hsub]
  · have hsub : offset < w.size ∧ size ≠ 0 := by omega
    have hword : w.offset + offset < 0x10000000000000000 := by omega
    have hroom : (w.drop offset).take (min size (w.size - offset)) = (w.drop offset).take size := by
      rw [← Window.size_drop, Window.take_min]
    rw [part?, if_neg hnone, sub_of_le (Nat.le_of_lt hsub.1), pure_bind, add_of_lt hword, pure_bind,
      Window.sub?, if_pos hsub, hroom]

theorem textTo_eq {w : Window} {start : Nat} (h : start + 1 < 0x10000000000000000) :
    (textTo (w.drop start) start ((w.drop start).zeroFrom 0) : Guarded ε (String × Nat))
      = pure (w.textFrom start) := by
  have hsize := w.size_lt
  have hlength : w.zeroFrom start - start ≤ (w.drop start).size := by
    rw [Window.size_drop]
    have hle : w.zeroFrom start ≤ w.size := Window.firstIndex_le
    omega
  rw [Window.size_drop] at hlength
  rw [Window.zeroFrom_drop, textTo, slice_zero (by rw [Window.size_drop]; exact hlength), pure_bind,
    add_of_lt (by omega), pure_bind, add_of_lt (by omega), pure_bind, Window.textFrom]

theorem terminated?_eq {w : Window} {start : Nat} (h : start ≤ w.size) :
    (terminated? (w.drop start) start : Guarded ε (Option (String × Nat)))
      = pure (w.terminated? start) := by
  have hsize := w.size_lt
  have hle : w.zeroFrom start ≤ w.size := Window.firstIndex_le
  have hstart : start ≤ w.zeroFrom start := w.le_firstIndex 0 w.size start h
  unfold terminated? Window.terminated?
  by_cases hzero : w.zeroFrom start < w.size
  · have hfound : ¬(w.drop start).zeroFrom 0 = (w.drop start).size := by
      rw [Window.zeroFrom_drop, Window.size_drop]
      omega
    rw [if_pos hzero]
    simp only [if_neg hfound]
    rw [textTo_eq (by omega), pure_bind]
  · have hnone : (w.drop start).zeroFrom 0 = (w.drop start).size := by
      rw [Window.zeroFrom_drop, Window.size_drop]
      omega
    rw [if_neg hzero]
    simp only [if_pos hnone]

end Guarded

end Chiptune
