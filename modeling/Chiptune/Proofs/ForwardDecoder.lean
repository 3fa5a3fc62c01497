import Chiptune.DecodeError
import Chiptune.Proofs.Outcomes
import Mathlib.Algebra.GroupWithZero.Nat
import Mathlib.Data.List.DropRight

namespace Chiptune.Ice.Forward

/-!
# ICE! packed data read forwards

A packed stream that is turned round is a plain stream of tokens: it is read front to back, and what
it unpacks to, turned round too, grows at its end. A token is a run of literal bytes or a copy of
bytes that were decoded before. Bits and bytes come from the same stream: a byte is taken for its
bits when none are left, and the literal bytes stand between such bytes.

* `Source` — what is left of a stream, and how bits, numbers and bytes are read from it;
* `Code`, `literalLength`, `matchCode` — the codes of the lengths and distances of tokens;
* `decode` — the decoded bytes;
* `length_decode`, `reason_decode` — how many there are, and why there may be none;
* `decode_append` — they do not depend on bytes that are not read.
-/

/-! ### Streams -/

/-- What is left of a stream: the bits of the byte that was begun, and the bytes behind it. -/
structure Source where
  bits : List Bool
  bytes : List UInt8

/-- The lowest `count` bits of a byte, highest bit first. -/
def lowBits (b : UInt8) : (count : Nat) → List Bool
  | 0 => []
  | count + 1 => b.toNat.testBit count :: lowBits b count

/-- The bits of a byte above its lowest one, highest bit first. -/
def markedBits (b : UInt8) : List Bool := ((lowBits b 8).rdropWhile (!·)).dropLast

namespace Source

/-- The next byte. -/
def byte (s : Source) : Except UnpackError (UInt8 × Source) :=
  match s.bytes with
  | [] => .error .exhausted
  | b :: bytes => .ok (b, { s with bytes })

/-- The next bit, which is the highest one of a new byte when none is left. -/
def bit (s : Source) : Except UnpackError (Bool × Source) :=
  match s.bits with
  | b :: bits => .ok (b, { s with bits })
  | [] => do
    let (b, s) ← s.byte
    return (b.toNat.testBit 7, { s with bits := lowBits b 7 })

/-- A number of `count` bits, of which the first counts most. -/
def number : (count : Nat) → Source → Except UnpackError (Nat × Source)
  | 0, s => return (0, s)
  | count + 1, s => do
    let (b, s) ← s.bit
    let (rest, s) ← number count s
    return (2 ^ count * b.toNat + rest, s)

/-- A stream at its start. The first byte marks where the bits begin: its lowest one and the zeros
    below it are no part of them. -/
def start (bytes : List UInt8) : Except UnpackError Source :=
  match bytes with
  | [] => .error .exhausted
  | b :: bytes => if b = 0 then .error .noMarker else .ok ⟨markedBits b, bytes⟩

end Source

/-! ### Codes -/

/-- A code for numbers. -/
abbrev Code := Source → Except UnpackError (Nat × Source)

namespace Code

/-- A number of `width` bits, counted from `base`. -/
def counted (width base : Nat) : Code := fun s => do
  let (n, s) ← s.number width
  return (base + n, s)

/-- A number of `width` bits, counted from `base`, or another code behind ones only. -/
def escaped (width base : Nat) (next : Code) : Code := fun s => do
  let (n, s) ← s.number width
  if n = 2 ^ width - 1 then next s else return (base + n, s)

/-- One code behind a zero, and another one behind a one. -/
def choice (zero one : Code) : Code := fun s => do
  let (b, s) ← s.bit
  if b then one s else zero s

end Code

open Code

/-- The length of a run of literal bytes. -/
def literalLength : Code :=
  escaped 1 1 <| escaped 2 2 <| escaped 2 5 <| escaped 3 8 <| escaped 8 15 <| counted 15 270

/-- How many literal bytes come before a copy. A zero says that there are none. -/
def literalRun : Code := choice (counted 0 0) literalLength

/-- How many bytes more than two a copy has. -/
def matchExtra : Code :=
  choice (counted 0 0) <| choice (counted 0 1) <| choice (counted 1 2) <| choice (counted 2 4) <|
    counted 10 8

/-- The distance of a copy of two bytes. -/
def shortDistance : Code := choice (counted 6 0) (counted 9 64)

/-- The number that the distance of a copy of more bytes is made of. -/
def farDistance : Code := choice (counted 8 32) <| choice (counted 5 0) <| counted 12 288

/-- How many bytes more than two a copy has, and how far before the last byte it begins. A distance
    of zero repeats the last byte; any other distance of a copy of more than two bytes is counted
    from its end. -/
def matchCode (s : Source) : Except UnpackError (Nat × Nat × Source) := do
  let (extra, s) ← matchExtra s
  if extra = 0 then
    let (distance, s) ← shortDistance s
    return (extra, distance, s)
  else
    let (distance, s) ← farDistance s
    return (extra, if distance = 0 then 0 else distance + extra, s)

/-! ### Decoding -/

/-- Append `count` bytes of the stream. -/
def appendBytes : (count : Nat) → List UInt8 → Source → Except UnpackError (List UInt8 × Source)
  | 0, out, s => return (out, s)
  | count + 1, out, s => do
    let (b, s) ← s.byte
    appendBytes count (out ++ [b]) s

/-- Append `count` bytes, each of them the one that is `distance` bytes before the last. A copy may
    run into its own bytes. -/
def appendCopies (distance : Nat) : (count : Nat) → List UInt8 → Except UnpackError (List UInt8)
  | 0, out => return out
  | count + 1, out =>
    match out.reverse[distance]? with
    | some b => appendCopies distance count (out ++ [b])
    | none => .error (.strayReference distance)

/-- Append tokens until no byte is missing: a run of literal bytes, which may be none, and unless no
    more bytes are missing a copy, and so on. The last token is cut off. -/
def decodeFrom (missing : Nat) (out : List UInt8) (s : Source) :
    Except UnpackError (List UInt8) := do
  if missing = 0 then return out
  let (run, s) ← literalRun s
  let count := min run missing
  let (out, s) ← appendBytes count out s
  -- No copy follows a run that goes to the end.
  if missing - count = 0 then return out
  let (extra, distance, s) ← matchCode s
  let size := min (extra + 2) (missing - count)
  let out ← appendCopies distance size out
  decodeFrom (missing - count - size) out s
termination_by missing
decreasing_by omega

/-- The first `size` bytes that a stream stands for. -/
def decode (size : Nat) (bytes : List UInt8) : Except UnpackError (List UInt8) := do
  let s ← Source.start bytes
  decodeFrom size [] s

/-! ### The number of bytes -/

theorem length_appendBytes {count : Nat} {out out' : List UInt8} {s s' : Source}
    (h : appendBytes count out s = .ok (out', s')) : out'.length = out.length + count := by
  induction count generalizing out s with
  | zero =>
    cases h
    rfl
  | succ count ih =>
    obtain ⟨⟨b, next⟩, -, h⟩ := ok_of_bind h
    rw [ih h, List.length_append, List.length_singleton, Nat.add_assoc, Nat.add_comm 1]

theorem length_appendCopies {distance count : Nat} {out out' : List UInt8}
    (h : appendCopies distance count out = .ok out') : out'.length = out.length + count := by
  induction count generalizing out with
  | zero =>
    cases h
    rfl
  | succ count ih =>
    rw [appendCopies] at h
    cases hb : out.reverse[distance]? with
    | none =>
      rw [hb] at h
      cases h
    | some b =>
      rw [hb] at h
      rw [ih h, List.length_append, List.length_singleton, Nat.add_assoc, Nat.add_comm 1]

/-- No token goes beyond the bytes that are missing. -/
theorem length_decodeFrom {missing : Nat} {out out' : List UInt8} {s : Source}
    (h : decodeFrom missing out s = .ok out') : out'.length = out.length + missing := by
  -- A copy has two bytes at least, or all that are missing, so less is missing behind it.
  induction missing using Nat.strongRecOn generalizing out s with
  | ind missing ih =>
    rw [decodeFrom] at h
    by_cases hmissing : missing = 0
    · rw [if_pos hmissing] at h
      cases h
      rw [hmissing, Nat.add_zero]
    · rw [if_neg hmissing] at h
      obtain ⟨⟨run, s₁⟩, -, h⟩ := ok_of_bind h
      obtain ⟨⟨literal, s₂⟩, hliteral, h⟩ := ok_of_bind h
      have hlength := length_appendBytes hliteral
      dsimp only at h
      by_cases hdone : missing - min run missing = 0
      · rw [if_pos hdone] at h
        cases h
        omega
      · rw [if_neg hdone] at h
        obtain ⟨⟨extra, distance, s₃⟩, -, h⟩ := ok_of_bind h
        obtain ⟨copied, hcopied, h⟩ := ok_of_bind h
        have hcopiedLength := length_appendCopies hcopied
        have hrest := ih _ (by omega) h
        omega

theorem length_decode {size : Nat} {bytes out : List UInt8} (h : decode size bytes = .ok out) :
    out.length = size := by
  obtain ⟨s, -, h⟩ := ok_of_bind h
  rw [length_decodeFrom h, List.length_nil, Nat.zero_add]

/-! ### Streams that go on -/

section Outlasts

variable {α β ρ : Type}

/-- Whether a computation that succeeds, or fails for a reason other than that its stream ended,
    does the same with a longer stream. No stream fails for any reason but three. -/
inductive Outlasts (R : α → α → Prop) : Except UnpackError α → Except UnpackError α → Prop where
  | ok {a b : α} : R a b → Outlasts R (.ok a) (.ok b)
  | noMarker : Outlasts R (.error .noMarker) (.error .noMarker)
  | stray (distance : Nat) :
      Outlasts R (.error (.strayReference distance)) (.error (.strayReference distance))
  | exhausted (y : Except UnpackError α) : Outlasts R (.error .exhausted) y

namespace Outlasts

theorem bind {Q : α → α → Prop} {R : β → β → Prop} {x y : Except UnpackError α}
    {f g : α → Except UnpackError β} (h : Outlasts Q x y)
    (hnext : ∀ a b, Q a b → Outlasts R (f a) (g b)) : Outlasts R (x >>= f) (y >>= g) := by
  cases h with
  | ok hab => exact hnext _ _ hab
  | noMarker => exact .noMarker
  | stray distance => exact .stray distance
  | exhausted y => exact .exhausted _

/-- The rule for a value that is the same on both sides. -/
theorem bind_beside {Q : ρ → ρ → Prop} {R : β → β → Prop} {x y : Except UnpackError (α × ρ)}
    {f g : α × ρ → Except UnpackError β}
    (h : Outlasts (fun x y => x.1 = y.1 ∧ Q x.2 y.2) x y)
    (hnext : ∀ a s s', Q s s' → Outlasts R (f (a, s)) (g (a, s'))) :
    Outlasts R (x >>= f) (y >>= g) := by
  apply h.bind
  rintro ⟨a, s⟩ ⟨_, s'⟩ ⟨rfl, hs⟩
  exact hnext a s s' hs

/-- Results that do not depend on what is left of a stream are the same, unless it ended. -/
theorem eq {x y : Except UnpackError α} (h : Outlasts Eq x y) (hne : x ≠ .error .exhausted) :
    y = x := by
  cases h with
  | ok hab => rw [hab]
  | noMarker => rfl
  | stray distance => rfl
  | exhausted y => exact absurd rfl hne

theorem reason {R : α → α → Prop} {e : UnpackError} {y : Except UnpackError α}
    (h : Outlasts R (.error e) y) :
    e = .exhausted ∨ e = .noMarker ∨ ∃ distance, e = .strayReference distance := by
  cases h with
  | noMarker => exact .inr (.inl rfl)
  | stray distance => exact .inr (.inr ⟨distance, rfl⟩)
  | exhausted y => exact .inl rfl

end Outlasts

end Outlasts

/-- Whether a stream is another one that goes on with more bytes. -/
structure Source.Extends (more : List UInt8) (s s' : Source) : Prop where
  bits : s'.bits = s.bits
  bytes : s'.bytes = s.bytes ++ more

/-- Whether what a reading gives does not change when its stream goes on. -/
def Lasting {α : Type} (more : List UInt8) (read : Source → Except UnpackError (α × Source)) :
    Prop :=
  ∀ ⦃s s'⦄, s.Extends more s' →
    Outlasts (fun x y => x.1 = y.1 ∧ x.2.Extends more y.2) (read s) (read s')

variable {more : List UInt8}

theorem lasting_byte : Lasting more Source.byte := by
  intro s s' h
  unfold Source.byte
  rw [h.bytes]
  cases s.bytes with
  | nil => exact .exhausted _
  | cons b bytes => exact .ok ⟨rfl, h.bits, rfl⟩

theorem lasting_bit : Lasting more Source.bit := by
  intro s s' h
  unfold Source.bit
  rw [h.bits]
  cases s.bits with
  | nil =>
    apply (lasting_byte h).bind_beside
    intro b s s' h
    exact .ok ⟨rfl, rfl, h.bytes⟩
  | cons b bits => exact .ok ⟨rfl, rfl, h.bytes⟩

theorem lasting_number (count : Nat) : Lasting more (Source.number count) := by
  induction count with
  | zero => exact fun s s' h => .ok ⟨rfl, h⟩
  | succ count ih =>
    intro s s' h
    apply (lasting_bit h).bind_beside
    intro b s s' h
    apply (ih h).bind_beside
    intro rest s s' h
    exact .ok ⟨rfl, h⟩

theorem lasting_counted (width base : Nat) : Lasting more (counted width base) := by
  intro s s' h
  apply (lasting_number width h).bind_beside
  intro n s s' h
  exact .ok ⟨rfl, h⟩

theorem lasting_escaped (width base : Nat) {next : Code} (hnext : Lasting more next) :
    Lasting more (escaped width base next) := by
  intro s s' h
  apply (lasting_number width h).bind_beside
  intro n s s' h
  by_cases hn : n = 2 ^ width - 1
  · simp only [hn, if_true]
    exact hnext h
  · simp only [hn, if_false]
    exact .ok ⟨rfl, h⟩

theorem lasting_choice {zero one : Code} (hzero : Lasting more zero) (hone : Lasting more one) :
    Lasting more (choice zero one) := by
  intro s s' h
  apply (lasting_bit h).bind_beside
  intro b s s' h
  cases b with
  | false => exact hzero h
  | true => exact hone h

theorem lasting_literalLength : Lasting more literalLength :=
  lasting_escaped 1 1 <| lasting_escaped 2 2 <| lasting_escaped 2 5 <| lasting_escaped 3 8 <|
    lasting_escaped 8 15 <| lasting_counted 15 270

theorem lasting_literalRun : Lasting more literalRun :=
  lasting_choice (lasting_counted 0 0) lasting_literalLength

theorem lasting_matchExtra : Lasting more matchExtra :=
  lasting_choice (lasting_counted 0 0) <| lasting_choice (lasting_counted 0 1) <|
    lasting_choice (lasting_counted 1 2) <| lasting_choice (lasting_counted 2 4) <|
      lasting_counted 10 8

theorem lasting_shortDistance : Lasting more shortDistance :=
  lasting_choice (lasting_counted 6 0) (lasting_counted 9 64)

theorem lasting_farDistance : Lasting more farDistance :=
  lasting_choice (lasting_counted 8 32) <| lasting_choice (lasting_counted 5 0) <|
    lasting_counted 12 288

theorem outlasts_matchCode {s s' : Source} (h : s.Extends more s') :
    Outlasts (fun x y => x.1 = y.1 ∧ x.2.1 = y.2.1 ∧ x.2.2.Extends more y.2.2) (matchCode s)
      (matchCode s') := by
  apply (lasting_matchExtra h).bind_beside
  intro extra s s' h
  by_cases hextra : extra = 0
  · simp only [hextra, if_true]
    apply (lasting_shortDistance h).bind_beside
    intro distance s s' h
    exact .ok ⟨rfl, rfl, h⟩
  · simp only [hextra, if_false]
    apply (lasting_farDistance h).bind_beside
    intro distance s s' h
    exact .ok ⟨rfl, rfl, h⟩

theorem lasting_appendBytes (count : Nat) (out : List UInt8) :
    Lasting more (appendBytes count out) := by
  induction count generalizing out with
  | zero => exact fun s s' h => .ok ⟨rfl, h⟩
  | succ count ih =>
    intro s s' h
    apply (lasting_byte h).bind_beside
    intro b s s' h
    exact ih _ h

/-- Copies read no stream at all. -/
theorem outlasts_appendCopies (distance count : Nat) (out : List UInt8) :
    Outlasts Eq (appendCopies distance count out) (appendCopies distance count out) := by
  induction count generalizing out with
  | zero => exact .ok rfl
  | succ count ih =>
    rw [appendCopies]
    cases out.reverse[distance]? with
    | some b => exact ih _
    | none => exact .stray distance

theorem outlasts_decodeFrom (missing : Nat) (out : List UInt8) {s s' : Source}
    (h : s.Extends more s') :
    Outlasts Eq (decodeFrom missing out s) (decodeFrom missing out s') := by
  -- Both decoders miss as many bytes at the same token, and fewer behind each copy.
  induction missing using Nat.strongRecOn generalizing out s s' with
  | ind missing ih =>
    rw [decodeFrom, decodeFrom]
    by_cases hmissing : missing = 0
    · simp only [hmissing, if_true]
      exact .ok rfl
    · simp only [hmissing, if_false]
      apply (lasting_literalRun h).bind_beside
      intro run s s' h
      apply (lasting_appendBytes _ out h).bind_beside
      intro out s s' h
      by_cases hdone : missing - min run missing = 0
      · simp only [hdone, if_true]
        exact .ok rfl
      · simp only [hdone, if_false]
        apply (outlasts_matchCode h).bind
        rintro ⟨extra, distance, s⟩ ⟨_, _, s'⟩ ⟨rfl, rfl, h⟩
        apply (outlasts_appendCopies distance _ out).bind
        rintro out _ rfl
        exact ih _ (by omega) out h

theorem outlasts_start (bytes : List UInt8) :
    Outlasts (Source.Extends more) (Source.start bytes) (Source.start (bytes ++ more)) := by
  cases bytes with
  | nil => exact .exhausted _
  | cons b bytes =>
    show Outlasts _ (if b = 0 then _ else _) (if b = 0 then _ else _)
    by_cases hzero : b = 0
    · rw [if_pos hzero, if_pos hzero]
      exact .noMarker
    · rw [if_neg hzero, if_neg hzero]
      exact .ok ⟨rfl, rfl⟩

theorem outlasts_decode (size : Nat) (bytes more : List UInt8) :
    Outlasts Eq (decode size bytes) (decode size (bytes ++ more)) := by
  apply (outlasts_start bytes).bind
  intro s s' h
  exact outlasts_decodeFrom size [] h

/-- A decoder fails for three reasons only. -/
theorem reason_decode {size : Nat} {bytes : List UInt8} {reason : UnpackError}
    (h : decode size bytes = .error reason) :
    reason = .exhausted ∨ reason = .noMarker ∨ ∃ distance, reason = .strayReference distance := by
  have houtlasts := outlasts_decode size bytes []
  rw [h] at houtlasts
  exact houtlasts.reason

/-- What a decoder has not read does not matter to it. Its result is the same with more bytes,
    unless it ran out of them. -/
theorem decode_append {size : Nat} {bytes : List UInt8}
    (h : decode size bytes ≠ .error .exhausted) (more : List UInt8) :
    decode size (bytes ++ more) = decode size bytes :=
  (outlasts_decode size bytes more).eq h

end Chiptune.Ice.Forward
