import Chiptune.Bytes.Number
import Chiptune.Plugin.Basic

namespace Chiptune

/-!
# ICE! packed data

Packed data begins with `ICE!` and the sizes of the packed data, header included, and of the
unpacked data, high byte first. Everything else is read backwards: the last byte of the packed data
comes first, and the last byte of the output is written first.

* `Ice.BitReader` — bits and bytes of the packed stream, from its end towards the header;
* `Ice.depack` — the unpacked bytes;
* `Ice.unpack` — the same, for data with a valid header.

The stream alternates between runs of literal bytes and matches, which copy bytes that were written
before. A match at distance `d` begins `d` bytes above the next place to write.
-/

namespace Ice

/-- The size of the header. -/
def headerSize : Nat := 12

/-- The magic word and the two sizes, with one byte of packed stream at least. -/
def signature : Signature :=
  .ofPattern ⟨Pattern.literal "ICE!" ++ List.replicate 8 .any, by decide⟩ (headerSize + 1)

/-! ### Reading backwards -/

/-- The bits that are left of a byte, those of `current` below the one bit of `mask`, and the number
    of bytes at the start of `data` that were not read yet. The bytes of the header never are. -/
structure BitReader where
  data : Window
  unread : Nat
  current : UInt8
  mask : UInt8

namespace BitReader

/-- The next byte towards the start. -/
def byte (r : BitReader) : Except UnpackError (UInt8 × BitReader) :=
  if headerSize < r.unread then
    match r.data[r.unread - 1]? with
    | some b => .ok (b, { r with unread := r.unread - 1 })
    | none => .error .exhausted
  else .error .exhausted

/-- The next bit. A new byte is taken when none is left. -/
def bit (r : BitReader) : Except UnpackError (Bool × BitReader) :=
  let mask := r.mask >>> 1
  if mask = 0 then do
    let (b, r) ← r.byte
    return (b &&& 0x80 != 0, { r with current := b, mask := 0x80 })
  else .ok (r.current &&& mask != 0, { r with mask })

/-- A number of `count` bits, most significant bit first, behind the bits of `value`. -/
def bitsFrom (value : Nat) : (count : Nat) → BitReader → Except UnpackError (Nat × BitReader)
  | 0, r => .ok (value, r)
  | count + 1, r => do
    let (bit, r) ← r.bit
    bitsFrom (2 * value + bit.toNat) count r

/-- A number of `count` bits, most significant bit first. -/
def bits (count : Nat) (r : BitReader) : Except UnpackError (Nat × BitReader) :=
  bitsFrom 0 count r

/-- The number of ones before the next zero. At most `limit` bits are read. -/
def ones : (limit : Nat) → BitReader → Except UnpackError (Nat × BitReader)
  | 0, r => .ok (0, r)
  | limit + 1, r => do
    let (bit, r) ← r.bit
    if bit then
      let (n, r) ← ones limit r
      return (n + 1, r)
    else return (0, r)

/-- Drop the lowest set bit of `current` and the zeros below it, `steps` bits at most, and move the
    mask along: the bits above are the first of the stream. -/
def dropMarker : (steps : Nat) → (current mask : UInt8) → UInt8 × UInt8
  | 0, current, mask => (current, mask)
  | steps + 1, current, mask =>
    if current &&& 1 = 0 then dropMarker steps (current >>> 1) (mask >>> 1)
    else (current >>> 1, mask)

/-- The reader of a packed stream. Its last byte ends in a marker: a one and any number of zeros. -/
def start (data : Window) : Except UnpackError BitReader := do
  let (b, r) ← byte ⟨data, data.size, 0, 0⟩
  if b = 0 then throw .noMarker
  let (current, mask) := dropMarker 8 b 0x80
  return { r with current, mask }

end BitReader

/-! ### Lengths and distances -/

/-- A step of a code: so many bits, and what is added to their value. -/
structure CodeStep where
  width : Nat
  base : Nat

/-- The steps of the length of a literal run. A step whose bits are all ones leads to the next one;
    the last step stands for itself in any case. -/
def literalSteps : List CodeStep := [⟨1, 1⟩, ⟨2, 2⟩, ⟨2, 5⟩, ⟨3, 8⟩, ⟨8, 15⟩, ⟨15, 270⟩]

/-- The length of a literal run. -/
def literalLength : List CodeStep → BitReader → Except UnpackError (Nat × BitReader)
  | [], r => .ok (0, r)
  | step :: rest, r => do
    let (value, r) ← r.bits step.width
    if value = Nat.pow 2 step.width - 1 ∧ rest ≠ [] then literalLength rest r
    else return (value + step.base, r)

/-- The steps of a match length, chosen by the number of ones before them. Two is added to each. -/
def lengthSteps : List CodeStep := [⟨0, 0⟩, ⟨0, 1⟩, ⟨1, 2⟩, ⟨2, 4⟩, ⟨10, 8⟩]

/-- The steps of a match distance, chosen by the number of ones before them. -/
def distanceSteps : List CodeStep := [⟨8, 32⟩, ⟨5, 0⟩, ⟨12, 288⟩]

/-- A number in the code whose steps are chosen by the number of ones before them. -/
def chosenStep (steps : List CodeStep) (r : BitReader) : Except UnpackError (Nat × BitReader) := do
  let (n, r) ← r.ones (steps.length - 1)
  let step := steps[n]?.getD ⟨0, 0⟩
  let (value, r) ← r.bits step.width
  return (step.base + value, r)

/-- The distance of the shortest match, which has a code of its own. -/
def shortDistance (r : BitReader) : Except UnpackError (Nat × BitReader) := do
  let (far, r) ← r.bit
  if far then
    let (value, r) ← r.bits 9
    return (64 + value, r)
  else r.bits 6

/-- How many bytes beyond two a match has, and its distance. The distance of a longer match counts
    from its end, unless it is zero. -/
def matchCode (r : BitReader) : Except UnpackError (Nat × Nat × BitReader) := do
  let (extra, r) ← chosenStep lengthSteps r
  if extra = 0 then
    let (distance, r) ← shortDistance r
    return (extra, distance, r)
  else
    let (distance, r) ← chosenStep distanceSteps r
    return (extra, if distance = 0 then 0 else distance + extra, r)

/-! ### Writing backwards -/

/-- Write `count` bytes of the stream into `output`, from below `place` downwards. -/
def copyLiteral : (count place : Nat) → ByteArray → BitReader →
    Except UnpackError (ByteArray × BitReader)
  | 0, _, output, r => .ok (output, r)
  | count + 1, place, output, r => do
    let (b, r) ← r.byte
    copyLiteral count (place - 1) (output.set! (place - 1) b) r

/-- Copy `count` bytes of `output`, from `source` downwards, to the places below `place`. -/
def copyMatch (distance : Nat) : (count place source : Nat) → ByteArray →
    Except UnpackError ByteArray
  | 0, _, _, output => .ok output
  | count + 1, place, source, output =>
    if h : source < output.size then
      copyMatch distance count (place - 1) (source - 1) (output.set! (place - 1) output[source])
    else .error (.strayReference distance)

/-- Fill `output` below `place`: a bit tells whether literal bytes come first, and unless they
    complete the output a match follows. What reaches beyond the start of the output is cut off. -/
def fill (place : Nat) (output : ByteArray) (r : BitReader) : Except UnpackError ByteArray := do
  if place = 0 then return output
  let (literal, r) ← r.bit
  if literal then
    let (length, r) ← literalLength literalSteps r
    let count := min length place
    let (output, r) ← copyLiteral count place output r
    if place - count = 0 then return output
    let (extra, distance, r) ← matchCode r
    let size := min (extra + 2) (place - count)
    let output ← copyMatch distance size (place - count) (place - count + distance) output
    fill (place - count - size) output r
  else
    let (extra, distance, r) ← matchCode r
    let size := min (extra + 2) place
    let output ← copyMatch distance size place (place + distance) output
    fill (place - size) output r
termination_by place
decreasing_by all_goals omega

/-- The `size` bytes that the packed stream behind the header in `data` unpacks to. -/
def depack (data : Window) (size : Nat) : Except UnpackError ByteArray := do
  let r ← BitReader.start data
  fill size (ByteArray.mk (Array.replicate size 0)) r

/-! ### The archive -/

/-- The sizes of the packed and of the unpacked data, from a valid header. -/
def sizes? (w : Window) : Option (Nat × Nat) := do
  if !signature.matchesStart w then none
  let packed ← w.be32? 4
  let unpacked ← w.be32? 8
  if headerSize < packed ∧ packed ≤ w.size ∧ 0 < unpacked then some (packed, unpacked) else none

/-- Whether packed data is at the start of `w`. -/
def check (w : Window) : Bool := (sizes? w).isSome

/-- The unpacked data, as an entry without a name. -/
def unpack (limit : UInt64) (w : Window) : Except DecodeError Unpacked := do
  let some (packed, unpacked) := sizes? w | throw .wrongSignature
  if limit.toNat < unpacked then throw (.tooLarge unpacked limit.toNat)
  let output ← (depack (w.take packed) unpacked).mapError DecodeError.packing
  return { entries := [⟨none, none, .ofByteArray output⟩], consumed := packed }

/-- The plugin for ICE! packed data. -/
def plugin : Plugin where
  id := "ICE"
  description := "ICE! packed data"
  features := .packed
  signature := signature
  check := check
  decoder := .archive fun settings => unpack settings.maxDecodedSize

end Ice

end Chiptune
