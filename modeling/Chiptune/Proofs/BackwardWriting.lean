import Chiptune.Proofs.Decoding
import Chiptune.Proofs.ForwardDecoder
import Chiptune.Proofs.Relocation
import Mathlib.Data.Nat.Bitwise

namespace Chiptune

/-!
# Packed data is read and written backwards

Unpacking reads the packed stream from its end to the header, and fills the output from its end to
its start. Turned round, both are what a plain decoder does that reads forwards and appends.

* `Ice.BitReader.Mirrors` — a reader and a forward stream at the same bit, which every reading
  keeps;
* `Ice.Holds` — an output whose written part is what was decoded, turned round, which every writing
  keeps;
* `Ice.Reads` — the numbers of a code, read on both sides;
* `Ice.fill_mirrors` — filling an output is decoding forwards;
* `Ice.depackInto_eq`, `Ice.depack_eq_decode` — and so is unpacking, whatever the output held.
-/

/-! ### Computations alike -/

namespace Alike

variable {ε α β γ : Type} {R : α → β → Prop}

theorem mono {S : α → β → Prop} {x : Except ε α} {y : Except ε β} (h : Alike R x y)
    (himp : ∀ a b, R a b → S a b) : Alike S x y := by
  cases h with
  | ok hab => exact .ok (himp _ _ hab)
  | error e => exact .error e

/-- A computation whose results are all made from those of another one. -/
theorem eq_map {f : β → α} {x : Except ε α} {y : Except ε β}
    (h : Alike (fun a b => a = f b) x y) : x = y.map f := by
  cases h with
  | ok hab => exact congrArg Except.ok hab
  | error e => rfl

/-- The rule for a value that is worked on further on one side only. -/
theorem bind_right {S : α → γ → Prop} {x : Except ε α} {y : Except ε β} {g : β → Except ε γ}
    (h : Alike R x y) (hnext : ∀ a b, R a b → Alike S (.ok a) (g b)) : Alike S x (y >>= g) := by
  cases h with
  | ok hab => exact hnext _ _ hab
  | error e => exact .error e

end Alike

namespace Ice

open Forward (Source Code lowBits markedBits)
open Forward.Code

/-! ### Bits of a byte -/

/-- A mask with a single one tells whether the bit is set. -/
theorem and_mask_ne_zero {b mask : UInt8} {i : Nat} (h : mask.toNat = 2 ^ i) :
    (b &&& mask != 0) = b.toNat.testBit i := by
  have hand : (b &&& mask).toNat = (b.toNat.testBit i).toNat * 2 ^ i := by
    rw [UInt8.toNat_and, h, Nat.and_two_pow]
  have hpos := Nat.two_pow_pos i
  cases hbit : b.toNat.testBit i with
  | true =>
    rw [hbit, Bool.toNat_true, Nat.one_mul] at hand
    refine bne_iff_ne.2 fun hzero => ?_
    rw [hzero, UInt8.toNat_zero] at hand
    omega
  | false =>
    rw [hbit, Bool.toNat_false, Nat.zero_mul] at hand
    simpa using UInt8.toNat_inj.1 hand

/-- The lowest bit of a byte stands behind the bits of its half. -/
theorem lowBits_succ (b : UInt8) (count : Nat) :
    lowBits b (count + 1) = lowBits (b >>> 1) count ++ [b.toNat.testBit 0] := by
  induction count with
  | zero => rfl
  | succ count ih =>
    rw [lowBits, ih, lowBits, List.cons_append, toNat_shiftRight_one, ← Nat.testBit_succ]

/-- A reader that has dropped the marker of a byte has the bits above it. Each zero that is dropped
    moves all bits down by one, and so the mask too. -/
theorem dropMarker_spec (steps : Nat) {b : UInt8} (mask : UInt8) (hne : b ≠ 0)
    (hlt : b.toNat < 2 ^ (steps + 1)) (hmask : mask.toNat = 2 ^ steps) :
    ∃ count ≤ steps, (BitReader.dropMarker (steps + 1) b mask).2.toNat = 2 ^ count
      ∧ ((lowBits b (steps + 1)).rdropWhile (!·)).dropLast
        = lowBits (BitReader.dropMarker (steps + 1) b mask).1 count := by
  have hbit : b.toNat.testBit 0 = decide (b.toNat % 2 = 1) := Nat.testBit_zero ..
  rw [BitReader.dropMarker, lowBits_succ]
  by_cases hzero : b &&& 1 = 0
  · -- The marker is further up, in a byte that is half as much.
    have heven := and_one_eq_zero_iff.1 hzero
    have hnext := shiftRight_one_ne_zero hne hzero
    have hhalf := toNat_shiftRight_one b
    rw [if_pos hzero, List.rdropWhile_concat_pos _ _ _ (by simp [hbit, heven])]
    cases steps with
    | zero => exact absurd (UInt8.toNat_inj.1 (by rw [UInt8.toNat_zero]; omega)) hne
    | succ steps =>
      have hshift : (mask >>> 1).toNat = 2 ^ steps := by
        rw [toNat_shiftRight_one, hmask, Nat.pow_succ, Nat.mul_div_cancel _ (by decide)]
      obtain ⟨count, hle, hspec⟩ :=
        dropMarker_spec steps (mask >>> 1) hnext (by rw [Nat.pow_succ] at hlt; omega) hshift
      exact ⟨count, Nat.le_succ_of_le hle, hspec⟩
  · -- The lowest bit is the marker.
    have hodd := mt and_one_eq_zero_iff.2 hzero
    rw [if_neg hzero, List.rdropWhile_concat_neg _ _ _ (by simp [hbit]; omega),
      List.dropLast_concat]
    exact ⟨steps, Nat.le_refl _, hmask, rfl⟩

/-! ### Readers and forward streams -/

namespace BitReader

/-- The bytes that were not read yet, in the order in which they will be. -/
def pending (r : BitReader) : List UInt8 := ((r.data.toList.take r.unread).drop headerSize).reverse

/-- A reader takes its pending bytes one by one. -/
theorem byte_cases {r : BitReader} (hfits : r.unread ≤ r.data.size) :
    (r.pending = [] ∧ r.byte = .error .exhausted)
    ∨ ∃ b, r.pending = b :: pending { r with unread := r.unread - 1 }
        ∧ r.byte = .ok (b, { r with unread := r.unread - 1 }) := by
  unfold byte pending
  have hlength := r.data.length_toList
  by_cases h : headerSize < r.unread
  · right
    have hlast : r.unread - 1 < r.data.toList.length := by omega
    have hsplit : r.data.toList.take r.unread
        = r.data.toList.take (r.unread - 1) ++ [r.data.toList[r.unread - 1]] := by
      have htake := List.take_add_one (l := r.data.toList) (i := r.unread - 1)
      rwa [List.getElem?_eq_getElem hlast, Nat.sub_add_cancel (by omega)] at htake
    refine ⟨r.data.toList[r.unread - 1], ?_, ?_⟩
    · rw [hsplit, List.drop_append_of_le_length (by rw [List.length_take]; omega),
        List.reverse_append]
      rfl
    · rw [if_pos h, Window.getElem?_eq_getElem?_toList, List.getElem?_eq_getElem hlast]
  · left
    rw [if_neg h, List.drop_eq_nil_of_le (by rw [List.length_take]; omega)]
    exact ⟨rfl, rfl⟩

/-- Whether a reader and a forward stream have the same bits and bytes left. -/
structure Mirrors (r : BitReader) (s : Source) : Prop where
  fits : r.unread ≤ r.data.size
  ahead : s.bytes = r.pending
  begun : ∃ count ≤ 7, r.mask.toNat = 2 ^ count ∧ s.bits = lowBits r.current count

namespace Mirrors

variable {r : BitReader} {s : Source}

theorem byte (h : Mirrors r s) : Alike (Beside Mirrors) r.byte s.byte := by
  unfold Source.byte
  rw [h.ahead]
  rcases byte_cases h.fits with ⟨hnil, hbyte⟩ | ⟨b, hcons, hbyte⟩
  · rw [hnil, hbyte]
    exact .error _
  · rw [hcons, hbyte]
    have hfits := h.fits
    exact .ok ⟨rfl, by show r.unread - 1 ≤ r.data.size; omega, rfl, h.begun⟩

theorem bit (h : Mirrors r s) : Alike (Beside Mirrors) r.bit s.bit := by
  obtain ⟨count, hcount, hmask, hbits⟩ := h.begun
  have hhalf := toNat_shiftRight_one r.mask
  simp only [BitReader.bit, Source.bit, hbits]
  cases count with
  | zero =>
    -- All bits were read, so both sides take a byte for new ones.
    have hzero : r.mask >>> 1 = 0 := UInt8.toNat_inj.1 (by rw [hhalf, hmask]; rfl)
    rw [if_pos hzero]
    apply h.byte.bind_beside
    intro b r s hr
    exact .ok ⟨and_mask_ne_zero (i := 7) rfl, hr.fits, hr.ahead, 7, Nat.le_refl _, rfl, rfl⟩
  | succ count =>
    have hnext : (r.mask >>> 1).toNat = 2 ^ count := by
      rw [hhalf, hmask, Nat.pow_succ, Nat.mul_div_cancel _ (by decide)]
    have hpos := Nat.two_pow_pos count
    have hne : r.mask >>> 1 ≠ 0 := fun hzero => by
      rw [hzero, UInt8.toNat_zero] at hnext
      omega
    rw [if_neg hne]
    exact .ok ⟨and_mask_ne_zero hnext, h.fits, h.ahead, count, by omega, hnext, rfl⟩

theorem bitsFrom (h : Mirrors r s) (value count : Nat) :
    Alike (fun x y => x.1 = 2 ^ count * value + y.1 ∧ Mirrors x.2 y.2)
      (r.bitsFrom value count) (s.number count) := by
  induction count generalizing value r s with
  | zero => exact .ok ⟨by simp, h⟩
  | succ count ih =>
    apply h.bit.bind_beside
    intro b r s hr
    apply (ih hr (2 * value + b.toNat)).bind_right
    rintro ⟨n, r⟩ ⟨rest, s⟩ ⟨hn, hr⟩
    -- One side doubles what it has for each further bit, the other one weighs each bit by itself.
    refine .ok ⟨?_, hr⟩
    show n = 2 ^ (count + 1) * value + (2 ^ count * b.toNat + rest)
    rw [show n = 2 ^ count * (2 * value + b.toNat) + rest from hn, Nat.pow_succ, Nat.mul_add,
      Nat.mul_assoc, Nat.add_assoc]

theorem bits (h : Mirrors r s) (count : Nat) :
    Alike (Beside Mirrors) (r.bits count) (s.number count) :=
  (h.bitsFrom 0 count).mono fun x y hxy => ⟨by rw [hxy.1, Nat.mul_zero, Nat.zero_add], hxy.2⟩

end Mirrors

/-- A packed stream behind a header and the stream turned round, at their starts. -/
theorem start_mirrors {w : Window} {header stream : List UInt8} (hw : w.toList = header ++ stream)
    (hheader : header.length = headerSize) :
    Alike Mirrors (start w) (Source.start stream.reverse) := by
  have hpending : pending ⟨w, w.size, 0, 0⟩ = stream.reverse := by
    have hall : w.toList.take w.size = w.toList := List.take_of_length_le (by simp)
    show ((w.toList.take w.size).drop headerSize).reverse = _
    rw [hall, hw, ← hheader, List.drop_left]
  unfold start Source.start
  rw [← hpending]
  rcases byte_cases (r := ⟨w, w.size, 0, 0⟩) (Nat.le_refl _) with ⟨hnil, hbyte⟩ | ⟨b, hcons, hbyte⟩
  · rw [hnil, hbyte]
    exact .error _
  · rw [hcons, hbyte]
    show Alike Mirrors (if b = 0 then _ else _) (if b = 0 then _ else _)
    by_cases hzero : b = 0
    · rw [if_pos hzero, if_pos hzero]
      exact .error _
    · obtain ⟨count, hcount, hmask, hbits⟩ := dropMarker_spec 7 0x80 hzero b.toNat_lt rfl
      have hread : Mirrors ⟨w, w.size - 1, (dropMarker 8 b 0x80).1, (dropMarker 8 b 0x80).2⟩
          ⟨markedBits b, pending ⟨w, w.size - 1, 0, 0⟩⟩ :=
        ⟨Nat.sub_le .., rfl, count, hcount, hmask, hbits⟩
      rw [if_neg hzero, if_neg hzero]
      exact .ok hread

end BitReader

open BitReader (Mirrors)

/-! ### Codes -/

/-- Whether the numbers that are read backwards are those of a code. -/
def Reads (read : BitReader → Except UnpackError (Nat × BitReader)) (code : Code) : Prop :=
  ∀ ⦃r s⦄, Mirrors r s → Alike (Beside Mirrors) (read r) (code s)

variable {width base : Nat}

theorem reads_counted :
    Reads (fun r => do let (value, r) ← r.bits width; return (base + value, r))
      (counted width base) := by
  intro r s h
  apply (h.bits width).bind_beside
  intro n r s hr
  exact .ok ⟨rfl, hr⟩

/-- The last step is not followed by another, whatever its value. -/
theorem reads_literalLength_last :
    Reads (literalLength [⟨width, base⟩]) (counted width base) := by
  intro r s h
  rw [literalLength]
  apply (h.bits width).bind_beside
  intro n r s hr
  simp only [ne_eq, not_true_eq_false, and_false, if_false]
  exact .ok ⟨Nat.add_comm .., hr⟩

theorem reads_literalLength_cons {rest : List CodeStep} {next : Code} (hne : rest ≠ [])
    (hnext : Reads (literalLength rest) next) :
    Reads (literalLength (⟨width, base⟩ :: rest)) (escaped width base next) := by
  intro r s h
  rw [literalLength]
  apply (h.bits width).bind_beside
  intro n r s hr
  dsimp only
  by_cases hn : n = 2 ^ width - 1
  · rw [if_pos ⟨hn, hne⟩, if_pos hn]
    exact hnext hr
  · rw [if_neg (fun hall => hn hall.1), if_neg hn]
    exact .ok ⟨Nat.add_comm .., hr⟩

theorem reads_literalLength : Reads (literalLength literalSteps) Forward.literalLength :=
  reads_literalLength_cons (List.cons_ne_nil _ _) <|
    reads_literalLength_cons (List.cons_ne_nil _ _) <|
    reads_literalLength_cons (List.cons_ne_nil _ _) <|
    reads_literalLength_cons (List.cons_ne_nil _ _) <|
    reads_literalLength_cons (List.cons_ne_nil _ _) reads_literalLength_last

/-- A step is chosen by a zero, or by the ones before it. -/
theorem chosenStep_cons (step : CodeStep) {rest : List CodeStep} (hne : rest ≠ [])
    (r : BitReader) :
    chosenStep (step :: rest) r = (do
      let (more, r) ← r.bit
      if more then chosenStep rest r
      else
        let (value, r) ← r.bits step.width
        return (step.base + value, r)) := by
  obtain ⟨second, others, rfl⟩ := List.exists_cons_of_ne_nil hne
  simp only [chosenStep, List.length_cons, Nat.add_sub_cancel, BitReader.ones]
  cases r.bit with
  | error reason => rfl
  | ok x =>
    obtain ⟨more, r'⟩ := x
    cases more with
    | false => rfl
    | true =>
      show ((r'.ones others.length >>= _) >>= _ : Except UnpackError _)
        = r'.ones others.length >>= _
      cases r'.ones others.length <;> rfl

theorem reads_chosenStep_cons {rest : List CodeStep} {one : Code} (hne : rest ≠ [])
    (hone : Reads (chosenStep rest) one) :
    Reads (chosenStep (⟨width, base⟩ :: rest)) (choice (counted width base) one) := by
  intro r s h
  rw [chosenStep_cons _ hne]
  apply h.bit.bind_beside
  intro more r s hr
  cases more with
  | false => exact reads_counted hr
  | true => exact hone hr

/-- A step that is the only one is not chosen by any bits. -/
theorem reads_chosenStep_last : Reads (chosenStep [⟨width, base⟩]) (counted width base) :=
  reads_counted

theorem reads_matchExtra : Reads (chosenStep lengthSteps) Forward.matchExtra :=
  reads_chosenStep_cons (List.cons_ne_nil _ _) <| reads_chosenStep_cons (List.cons_ne_nil _ _) <|
    reads_chosenStep_cons (List.cons_ne_nil _ _) <|
    reads_chosenStep_cons (List.cons_ne_nil _ _) reads_chosenStep_last

theorem reads_farDistance : Reads (chosenStep distanceSteps) Forward.farDistance :=
  reads_chosenStep_cons (List.cons_ne_nil _ _) <|
    reads_chosenStep_cons (List.cons_ne_nil _ _) reads_chosenStep_last

theorem reads_shortDistance : Reads shortDistance Forward.shortDistance := by
  intro r s h
  apply h.bit.bind_beside
  intro far r s hr
  cases far with
  | false =>
    apply (hr.bits 6).bind_right
    rintro ⟨n, r⟩ ⟨_, s⟩ ⟨rfl, hr⟩
    exact .ok ⟨(Nat.zero_add _).symm, hr⟩
  | true => exact reads_counted hr

theorem matchCode_mirrors {r : BitReader} {s : Source} (h : Mirrors r s) :
    Alike (Beside (Beside Mirrors)) (matchCode r) (Forward.matchCode s) := by
  apply (reads_matchExtra h).bind_beside
  intro extra r s hr
  by_cases hextra : extra = 0
  · simp only [hextra, if_true]
    apply (reads_shortDistance hr).bind_beside
    intro distance r s hr
    exact .ok ⟨rfl, rfl, hr⟩
  · simp only [hextra, if_false]
    apply (reads_farDistance hr).bind_beside
    intro distance r s hr
    exact .ok ⟨rfl, rfl, hr⟩

/-! ### Outputs -/

/-- Whether the bytes of an output from `place` on are those of `out`, turned round. What stands
    below does not matter. -/
structure Holds (output : ByteArray) (place : Nat) (out : List UInt8) : Prop where
  fits : place ≤ output.size
  written : output.data.toList.drop place = out.reverse

namespace Holds

theorem length_toList (output : ByteArray) : output.data.toList.length = output.size :=
  Array.length_toList

variable {output : ByteArray} {place : Nat} {out : List UInt8}

/-- Before anything is written, nothing has been decoded. -/
theorem start (output : ByteArray) : Holds output output.size [] :=
  ⟨Nat.le_refl _, List.drop_eq_nil_of_le (Nat.le_of_eq (length_toList output))⟩

/-- Writing a byte below is appending it. -/
theorem push (h : Holds output place out) (hpos : 0 < place) (b : UInt8) :
    Holds (output.set! (place - 1) b) (place - 1) (out ++ [b]) := by
  have hfits := h.fits
  have hlength := length_toList output
  refine ⟨by rw [ByteArray.size_set!]; omega, ?_⟩
  show ((output.data.setIfInBounds (place - 1) b).toList).drop (place - 1) = _
  rw [Array.toList_setIfInBounds, List.drop_eq_getElem_cons (by rw [List.length_set]; omega),
    List.getElem_set_self, List.drop_set_of_lt (by omega), Nat.sub_add_cancel hpos, h.written,
    List.reverse_append]
  rfl

/-- The byte at some distance above the place is the one at that distance before the last. -/
theorem getElem? (h : Holds output place out) (distance : Nat) :
    out.reverse[distance]? = output[place + distance]? := by
  have hlength := length_toList output
  rw [← h.written, List.getElem?_drop]
  by_cases hlt : place + distance < output.size
  · rw [getElem?_pos output _ hlt, List.getElem?_eq_getElem (by omega)]
    rfl
  · rw [getElem?_neg output _ hlt, List.getElem?_eq_none (by omega)]

/-- The whole output, when all of it is written. -/
theorem eq (h : Holds output 0 out) : output = ⟨out.reverse.toArray⟩ := by
  rw [← h.written, List.drop_zero]

end Holds

variable {output : ByteArray} {place : Nat} {out : List UInt8} {r : BitReader} {s : Source}

theorem copyLiteral_mirrors {count : Nat} (hcount : count ≤ place) (hout : Holds output place out)
    (h : Mirrors r s) :
    Alike (fun x y => Holds x.1 (place - count) y.1 ∧ Mirrors x.2 y.2)
      (copyLiteral count place output r) (Forward.appendBytes count out s) := by
  induction count generalizing place output out r s with
  | zero => exact .ok ⟨hout, h⟩
  | succ count ih =>
    apply h.byte.bind_beside
    intro b r s hr
    have hrest := ih (by omega) (hout.push (by omega) b) hr
    rwa [Nat.sub_sub, Nat.add_comm 1] at hrest

/-- The distance between the place to write and that to read stays the same. -/
theorem copyMatch_mirrors (distance : Nat) {count : Nat} (hcount : count ≤ place)
    (hout : Holds output place out) :
    Alike (fun x y => Holds x (place - count) y)
      (copyMatch distance count place (place + distance) output)
      (Forward.appendCopies distance count out) := by
  induction count generalizing place output out with
  | zero => exact .ok hout
  | succ count ih =>
    rw [copyMatch, Forward.appendCopies, hout.getElem? distance]
    by_cases hlt : place + distance < output.size
    · rw [dif_pos hlt, getElem?_pos output _ hlt]
      have hsource : place + distance - 1 = place - 1 + distance := by omega
      have hrest := ih (by omega) (hout.push (by omega) output[place + distance])
      rw [hsource]
      rwa [Nat.sub_sub, Nat.add_comm 1] at hrest
    · rw [dif_neg hlt, getElem?_neg output _ hlt]
      exact .error _

/-! ### Unpacking -/

/-- The match of a round, and the rounds behind it. -/
theorem match_mirrors (hpos : 0 < place) (hout : Holds output place out) (h : Mirrors r s)
    (hfill : ∀ {next : Nat} {output : ByteArray} {out : List UInt8} {r : BitReader} {s : Source},
      next < place → Holds output next out → Mirrors r s →
      Alike (fun x y => x = ⟨y.reverse.toArray⟩) (fill next output r)
        (Forward.decodeFrom next out s)) :
    Alike (fun x y => x = ⟨y.reverse.toArray⟩)
      (do
        let (extra, distance, r) ← matchCode r
        let size := min (extra + 2) place
        let output ← copyMatch distance size place (place + distance) output
        fill (place - size) output r)
      (do
        let (extra, distance, s) ← Forward.matchCode s
        let size := min (extra + 2) place
        let out ← Forward.appendCopies distance size out
        Forward.decodeFrom (place - size) out s) := by
  apply (matchCode_mirrors h).bind_beside
  rintro extra ⟨distance, r⟩ ⟨_, s⟩ ⟨rfl, hr⟩
  apply (copyMatch_mirrors distance (Nat.min_le_right ..) hout).bind
  intro output out hout
  exact hfill (by omega) hout hr

/-- **Filling an output.** What is written below a place, the output turned round, is what a forward
    decoder appends. -/
theorem fill_mirrors (hout : Holds output place out) (h : Mirrors r s) :
    Alike (fun x y => x = ⟨y.reverse.toArray⟩) (fill place output r)
      (Forward.decodeFrom place out s) := by
  -- What is left to write shrinks with every round.
  induction place using Nat.strongRecOn generalizing output out r s with
  | ind place ih =>
    rw [fill, Forward.decodeFrom]
    by_cases hplace : place = 0
    · subst hplace
      exact .ok hout.eq
    · simp only [hplace, if_false]
      rw [Forward.literalRun, choice, bind_assoc]
      apply h.bit.bind_beside
      intro literal r s hr
      cases literal with
      | true =>
        apply (reads_literalLength hr).bind_beside
        intro length r s hr
        apply (copyLiteral_mirrors (Nat.min_le_right length place) hout hr).bind
        rintro ⟨output, r⟩ ⟨out, s⟩ ⟨hout, hr⟩
        by_cases hdone : place - min length place = 0
        · simp only [hdone] at hout ⊢
          exact .ok hout.eq
        · simp only [hdone, if_false]
          exact match_mirrors (by omega) hout hr fun hnext => ih _ (by omega)
      | false =>
        -- No literal bytes are a run of none.
        simp only [Bool.false_eq_true, if_false, counted, Source.number, pure_bind, Nat.add_zero,
          Nat.zero_min, Forward.appendBytes, Nat.sub_zero, hplace]
        exact match_mirrors (by omega) hout hr fun hnext => ih _ hnext

/-- Unpack into an output, which holds anything before. -/
def depackInto (output : ByteArray) (data : Window) : Except UnpackError ByteArray := do
  let r ← BitReader.start data
  fill output.size output r

theorem depack_eq_depackInto (data : Window) (size : Nat) :
    depack data size = depackInto (ByteArray.mk (Array.replicate size 0)) data := by
  have hsize : (ByteArray.mk (Array.replicate size 0)).size = size := Array.size_replicate
  rw [depackInto, hsize, depack]

/-- What an output holds before, and what the header holds, does not matter. -/
theorem depackInto_eq (output : ByteArray) {w : Window} {header stream : List UInt8}
    (hw : w.toList = header ++ stream) (hheader : header.length = headerSize) :
    depackInto output w
      = (Forward.decode output.size stream.reverse).map fun out => ⟨out.reverse.toArray⟩ := by
  apply Alike.eq_map
  apply (BitReader.start_mirrors hw hheader).bind
  intro r s hr
  exact fill_mirrors (.start output) hr

/-- Unpacked bytes are decoded ones, turned round. -/
theorem depack_eq_map (size : Nat) {w : Window} {header stream : List UInt8}
    (hw : w.toList = header ++ stream) (hheader : header.length = headerSize) :
    depack w size
      = (Forward.decode size stream.reverse).map fun out => ⟨out.reverse.toArray⟩ := by
  have hsize : (ByteArray.mk (Array.replicate size 0)).size = size := Array.size_replicate
  rw [depack_eq_depackInto, depackInto_eq _ hw hheader, hsize]

/-- **Unpacking is decoding.** The packed stream behind a header, turned round, stands for the
    unpacked bytes, turned round: unpacking gives what a forward decoder gives, or fails for the
    same reason. There are three such reasons, and the bytes of the header are none. -/
theorem depack_eq_decode (size : Nat) {w : Window} {header stream : List UInt8}
    (hw : w.toList = header ++ stream) (hheader : header.length = headerSize) :
    depack w size = (Forward.decode size stream.reverse).map (fun out => ⟨out.reverse.toArray⟩)
    ∧ (∀ out, Forward.decode size stream.reverse = .ok out → out.length = size)
    ∧ (∀ reason, Forward.decode size stream.reverse = .error reason →
        reason = .exhausted ∨ reason = .noMarker ∨ ∃ distance, reason = .strayReference distance)
    ∧ ∀ (w' : Window) (header' : List UInt8), w'.toList = header' ++ stream →
        header'.length = headerSize → depack w' size = depack w size := by
  refine ⟨depack_eq_map size hw hheader, fun out => Forward.length_decode,
    fun reason => Forward.reason_decode, fun w' header' hw' hheader' => ?_⟩
  rw [depack_eq_map size hw' hheader', depack_eq_map size hw hheader]

/-- A run of two literal bytes and a copy of them, behind a header of zeros. -/
theorem depack_eq_decode_literalAndCopy :
    depack (.ofByteArray ⟨#[0, 0, 0, 0, 0, 0, 0, 0, 0, 0, 0, 0, 0x01, 0x41, 0x42, 0xC8]⟩) 4
        = .ok ⟨#[0x41, 0x42, 0x41, 0x42]⟩
      ∧ Forward.decode 4 [0xC8, 0x42, 0x41, 0x01] = .ok [0x42, 0x41, 0x42, 0x41] := by
  have hw : (Window.ofByteArray
      ⟨#[0, 0, 0, 0, 0, 0, 0, 0, 0, 0, 0, 0, 0x01, 0x41, 0x42, 0xC8]⟩).toList
        = List.replicate 12 0 ++ [0x01, 0x41, 0x42, 0xC8] := by
    decide +kernel
  have hdecode : Forward.decode 4 [0xC8, 0x42, 0x41, 0x01] = .ok [0x42, 0x41, 0x42, 0x41] := by
    decide +kernel
  refine ⟨?_, hdecode⟩
  rw [(depack_eq_decode 4 hw rfl).1]
  exact congrArg (Except.map _) hdecode

end Ice

end Chiptune
