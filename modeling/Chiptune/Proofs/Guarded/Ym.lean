import Chiptune.Proofs.Guarded.Basic
import Chiptune.Proofs.WrittenBytes

namespace Chiptune.Ym

/-!
# Guarded steps of recordings

The header of a recording states how many frames and drum samples follow, and how long each sample
is. The offsets behind them are words, as the samples have to be inside the data.

* `Ym.Steps.yields_parseFull` — the recordings with drum samples and texts;
* `Ym.Steps.check_eq`, `Ym.Steps.read_eq` — the steps end in the result of the reading.
-/

open Guarded

namespace Steps

/-- The number of `width` bytes at `offset`, high byte first, when all of them are there. -/
def number (w : Window) (offset width : Nat) : Guarded DecodeError Nat := do
  let some n ← bigEndian? w offset width | refuse .truncated
  return n

/-- The steps of `Ym.parsePlain`. -/
def parsePlain (w : Window) (trailer : Nat) (format : String) : Guarded DecodeError Recording := do
  let outside ← add versionSize trailer
  if w.size < outside then refuse .truncated
  let count := (w.size - outside) / plainFrame
  if count = 0 then refuse .noFrames
  let length ← mul count plainFrame
  let stop ← add versionSize length
  return {
    info := { format, frameCount := some count }
    frames := (versionSize, stop)
    size := w.size }

/-- The steps of `Header.read?`, and of a number behind the frame count that nothing needs. -/
def readHeader (w : Window) : Guarded DecodeError Header := do
  let frames ← number w 12 4
  let _ ← number w 16 4
  let drums ← number w 20 2
  let rate ← number w 26 2
  let extra ← number w 32 2
  return { frames, drums, rate, extra }

/-- The steps of `Ym.skipDrums`. A sum that is no word is not inside the data either. -/
def skipDrums (w : Window) (offset : Nat) : (count : Nat) → Guarded DecodeError Nat
  | 0 => return offset
  | count + 1 => do
    let size ← number w offset 4
    let length ← add 4 size
    if UInt64.size ≤ offset + length ∨ w.size < offset + length then refuse .truncated
    skipDrums w (offset + length) count

/-- The steps of `Ym.text`. -/
def text (w : Window) (offset : Nat) : Guarded DecodeError (String × Nat) := do
  if w.size < offset then refuse .truncated
  let some found ← terminated? (w.drop offset) offset | refuse (.unterminatedText offset)
  return found

/-- The steps of `Ym.parseFull`. The first letters of the data name the format. -/
def parseFull (w : Window) : Guarded DecodeError Recording := do
  if !w.holdsAt versionSize (Window.ascii magic) then refuse .wrongSignature
  let header ← readHeader w
  if header.frames = 0 ∨ maxFrames < header.frames then refuse (.frameCount header.frames)
  let first ← add headerSize header.extra
  let offset ← skipDrums w first header.drums
  let (title, offset) ← text w offset
  let (author, offset) ← text w offset
  let (comments, offset) ← text w offset
  let length ← mul header.frames fullFrame
  let stop ← add offset length
  let size ← add stop endMarker.length
  if !w.holdsAt stop (Window.ascii endMarker) then refuse .noEndMarker
  let version ← slice w 0 3
  let info : TuneInfo :=
    { title, author, comments, format := version.text, frameCount := some header.frames }
  return {
    info := if header.rate = 0 then info else { info with frameRate := header.rate }
    frames := (offset, stop)
    size }

/-- The steps of `Ym.parse`. -/
def parse (w : Window) : Guarded DecodeError Recording :=
  let begins (word : String) : Bool := w.holdsAt 0 (Window.ascii word)
  if begins "YM2!" || begins "YM3!" then parsePlain w 0 "YM3"
  else if begins "YM3b" then parsePlain w 4 "YM3b"
  else if begins "YM5!" || begins "YM6!" then parseFull w
  else refuse .wrongSignature

/-- The steps of `Ym.check`. -/
def check (w : Window) : Guarded DecodeError Bool := admits (signature.matchesStart w) (parse w)

/-- The steps of `Ym.read`. -/
def read (w : Window) : Guarded DecodeError SingleTune := do
  let w ← view w
  let recording ← parse w
  let some data ← part? w 0 recording.size | refuse .truncated
  return {
    tune := ⟨recording.info, data, none⟩
    consumed := recording.size
    fixed := recording.frames
    properties := recording.info.toProperties }

variable {w : Window} {offset width : Nat}

theorem number_of_some {n : Nat} (hwidth : 0 < width)
    (h : (w.bytes? offset width).map valueBE = some n) : number w offset width = pure n := by
  obtain ⟨bytes, hbytes, -⟩ := Option.map_eq_some_iff.1 h
  have hsize := w.size_lt
  have hle := Window.add_le_size_of_bytes? hwidth hbytes
  rw [number, bigEndian?_eq hwidth (by omega), pure_bind, h]

theorem number_of_none (hwidth : 0 < width) (hword : offset + width < 0x10000000000000000)
    (h : (w.bytes? offset width).map valueBE = none) :
    number w offset width = refuse .truncated := by
  rw [number, bigEndian?_eq hwidth hword, pure_bind, h]

theorem yields_parsePlain {trailer : Nat} (htrailer : trailer ≤ 4) (format : String) :
    Yields (parsePlain w trailer format) (Ym.parsePlain w trailer format) fun _ => True := by
  have hsizes : versionSize = 4 ∧ plainFrame = 14 := ⟨rfl, rfl⟩
  obtain ⟨hversion, hframe⟩ := hsizes
  have hsize := w.size_lt
  have hfit := Nat.div_mul_le_self (w.size - (versionSize + trailer)) plainFrame
  unfold parsePlain Ym.parsePlain
  refine .step (add_of_lt (by omega)) ?_
  refine yields_unless fun _ => ?_
  rw [Nat.sub_sub]
  refine yields_unless fun _ => ?_
  exact .step (mul_of_lt (by omega)) (.step (add_of_lt (by omega)) (yields_pure trivial))

theorem be16?_lt {n : Nat} (h : w.be16? offset = some n) : n < 0x10000 := by
  obtain ⟨bytes, hbytes, rfl⟩ := Option.map_eq_some_iff.1 h
  have hlt := valueBE_lt bytes
  rwa [Window.length_of_bytes? hbytes] at hlt

theorem be32?_lt {n : Nat} (h : w.be32? offset = some n) : n < 0x100000000 := by
  obtain ⟨bytes, hbytes, rfl⟩ := Option.map_eq_some_iff.1 h
  have hlt := valueBE_lt bytes
  rwa [Window.length_of_bytes? hbytes] at hlt

/-- Where the header ends too early, one of the numbers is missing. -/
theorem readHeader_of_none (h : Header.read? w = none) : readHeader w = refuse .truncated := by
  unfold readHeader
  cases hframes : w.be32? 12 with
  | none => rw [number_of_none (by decide) (by decide) hframes]; rfl
  | some frames =>
    rw [number_of_some (by decide) hframes, pure_bind]
    cases hattributes : w.be32? 16 with
    | none => rw [number_of_none (by decide) (by decide) hattributes]; rfl
    | some attributes =>
      rw [number_of_some (by decide) hattributes, pure_bind]
      cases hdrums : w.be16? 20 with
      | none => rw [number_of_none (by decide) (by decide) hdrums]; rfl
      | some drums =>
        rw [number_of_some (by decide) hdrums, pure_bind]
        cases hrate : w.be16? 26 with
        | none => rw [number_of_none (by decide) (by decide) hrate]; rfl
        | some rate =>
          rw [number_of_some (by decide) hrate, pure_bind]
          cases hextra : w.be16? 32 with
          | none => rw [number_of_none (by decide) (by decide) hextra]; rfl
          | some extra =>
            rw [Header.read?, hframes, hdrums, hrate, hextra] at h
            cases h

theorem readHeader_of_some {header : Header} (h : Header.read? w = some header) :
    readHeader w = pure header ∧ header.extra < 0x10000 := by
  obtain ⟨frames, hframes, h⟩ := Option.bind_eq_some_iff.1 h
  obtain ⟨drums, hdrums, h⟩ := Option.bind_eq_some_iff.1 h
  obtain ⟨rate, hrate, h⟩ := Option.bind_eq_some_iff.1 h
  obtain ⟨extra, hextra, h⟩ := Option.bind_eq_some_iff.1 h
  cases h
  refine ⟨?_, be16?_lt hextra⟩
  obtain ⟨bytes, hbytes, -⟩ := Option.map_eq_some_iff.1 hextra
  have hsize := Window.add_le_size_of_bytes? (by decide) hbytes
  obtain ⟨attributes, hattributes⟩ := Window.exists_bytes? (show 16 + 4 ≤ w.size by omega)
  rw [readHeader, number_of_some (by decide) hframes, pure_bind,
    number_of_some (by decide) (congrArg (Option.map valueBE) hattributes), pure_bind,
    number_of_some (by decide) hdrums, pure_bind, number_of_some (by decide) hrate, pure_bind,
    number_of_some (by decide) hextra, pure_bind]

theorem yields_skipDrums {count : Nat} (hoffset : offset ≤ w.size + 0x10100) :
    Yields (skipDrums w offset count) (Ym.skipDrums w offset count)
      fun next => next ≤ w.size + 0x10100 := by
  induction count generalizing offset with
  | zero => exact yields_pure hoffset
  | succ count ih =>
    have hsize := w.size_lt
    unfold skipDrums Ym.skipDrums
    cases hbytes : w.be32? offset with
    | none =>
      rw [number_of_none (by decide) (by omega) hbytes]
      exact yields_refuse _
    | some size =>
      have hword := be32?_lt hbytes
      refine .step (number_of_some (by decide) hbytes) (.step (add_of_lt (by omega)) ?_)
      simp only [← Nat.add_assoc]
      by_cases hstop : w.size < offset + 4 + size
      · rw [if_pos (.inr hstop), if_pos hstop]
        exact yields_refuse _
      · rw [if_neg (by rw [UInt64.size]; omega), if_neg hstop]
        exact ih (by omega)

theorem yields_text :
    Yields (text w offset) (Ym.text w offset) fun x => x.2 ≤ w.size := by
  unfold text Ym.text
  by_cases hsize : w.size < offset
  · rw [if_pos hsize, if_pos hsize]
    exact yields_refuse _
  · rw [if_neg hsize, if_neg hsize]
    refine .step (terminated?_eq (Nat.le_of_not_lt hsize)) ?_
    cases hfound : w.terminated? offset with
    | none => exact yields_refuse _
    | some found =>
      obtain ⟨title, next⟩ := found
      exact yields_pure (Window.lt_stop_of_terminated? hfound).2

/-- The name of the format is the word at the start without its mark. -/
theorem text_of_word {word : String} (hword : word ∈ ["YM5", "YM6"])
    (h : w.holdsAt 0 (Window.ascii (word ++ "!")) = true) : (w.take 3).text = word := by
  have htake := Window.take_drop_of_holdsAt h
  rw [List.drop_zero] at htake
  simp only [List.mem_cons, List.not_mem_nil, or_false] at hword
  have hbytes : (w.take 3).toList = (Window.ascii (word ++ "!")).take 3 := by
    rw [← htake, Window.toList_take, List.take_take]
    rcases hword with rfl | rfl
    · rfl
    · rfl
  rw [Window.text, hbytes]
  rcases hword with rfl | rfl
  · decide +kernel
  · decide +kernel

theorem yields_parseFull {format : String} (hformat : (w.take 3).text = format) :
    Yields (parseFull w) (Ym.parseFull w format) fun _ => True := by
  have hsizes : headerSize = 34 ∧ fullFrame = 16 ∧ maxFrames = 100000 ∧ endMarker.length = 4 :=
    ⟨rfl, rfl, rfl, rfl⟩
  obtain ⟨hheaderSize, hframeSize, hmaxFrames, hmarker⟩ := hsizes
  have hword := w.size_lt
  unfold parseFull Ym.parseFull
  refine yields_unless fun hmagic => ?_
  have hend : versionSize + (Window.ascii magic).length ≤ w.size :=
    Window.add_length_le_of_holdsAt (by decide) (by simpa using hmagic)
  have hletters : 3 ≤ versionSize + (Window.ascii magic).length := by decide
  cases hheader : Header.read? w with
  | none =>
    rw [readHeader_of_none hheader]
    exact yields_refuse _
  | some header =>
    obtain ⟨hsteps, hextra⟩ := readHeader_of_some hheader
    refine .step hsteps ?_
    refine yields_unless fun hframes => ?_
    refine .step (add_of_lt (by omega)) ?_
    refine (yields_skipDrums (by omega)).bind fun behindDrums _ _ => ?_
    refine yields_text.bind fun ⟨title, behindTitle⟩ _ _ => ?_
    refine yields_text.bind fun ⟨author, behindAuthor⟩ _ _ => ?_
    refine yields_text.bind fun ⟨comments, start⟩ _ hcomments => ?_
    have hstart : start ≤ w.size := hcomments
    have hlength : header.frames * fullFrame ≤ 1600000 := by
      rw [hframeSize]
      omega
    refine .step (mul_of_lt (by omega)) ?_
    refine .step (add_of_lt (by show start + _ < _; omega)) ?_
    refine .step (add_of_lt (by show start + _ + _ < _; omega)) ?_
    refine yields_unless fun _ => ?_
    refine .step (slice_zero (by omega)) ?_
    rw [hformat]
    exact yields_pure trivial

theorem yields_parse (w : Window) : Yields (parse w) (Ym.parse w) fun _ => True := by
  unfold parse Ym.parse
  simp only
  by_cases hplain : (w.holdsAt 0 (Window.ascii "YM2!") || w.holdsAt 0 (Window.ascii "YM3!")) = true
  · rw [if_pos hplain, if_pos hplain]
    exact yields_parsePlain (by decide) "YM3"
  rw [if_neg hplain, if_neg hplain]
  by_cases hlooped : w.holdsAt 0 (Window.ascii "YM3b") = true
  · rw [if_pos hlooped, if_pos hlooped]
    exact yields_parsePlain (by decide) "YM3b"
  rw [if_neg hlooped, if_neg hlooped]
  by_cases hfive : w.holdsAt 0 (Window.ascii "YM5!") = true
  · rw [if_pos (Bool.or_eq_true_iff.2 (.inl hfive)), if_pos hfive]
    exact yields_parseFull (text_of_word (by decide) hfive)
  rw [if_neg hfive]
  by_cases hsix : w.holdsAt 0 (Window.ascii "YM6!") = true
  · rw [if_pos (Bool.or_eq_true_iff.2 (.inr hsix)), if_pos hsix]
    exact yields_parseFull (text_of_word (by decide) hsix)
  · rw [if_neg (by simp [hfive, hsix]), if_neg hsix]
    exact yields_refuse _

theorem read_eq (w : Window) : read w = outcome (Ym.read w) := by
  suffices h : Yields (read w) (Ym.read w) fun _ => True from h.eq
  refine .step (view_eq w) ?_
  refine (yields_parse w).bind fun recording _ _ => ?_
  refine .step (part?_eq w _ _) ?_
  cases w.sub? 0 recording.size with
  | none => exact yields_refuse _
  | some data => exact yields_pure trivial

end Steps

end Chiptune.Ym
