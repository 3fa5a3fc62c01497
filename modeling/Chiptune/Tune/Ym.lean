import Chiptune.Bytes.Number
import Chiptune.Plugin.Basic
import Chiptune.Text.Terminated

namespace Chiptune

/-!
# YM files

A YM file is a recording of the registers of a sound chip, one frame for each interrupt.

* Versions 2 and 3 are nothing but frames, of which a looped file states the first to repeat.
* Versions 5 and 6 have a header, samples of drums and three texts before the frames, and an end
  marker behind them.

`Ym.parse` finds the frames and what is known of the tune. Numbers have the high byte first.
-/

namespace Ym

/-- What is known of a recording, the stretch of its frames, and the number of bytes it takes. -/
structure Recording where
  info : TuneInfo
  frames : Nat × Nat
  size : Nat

/-- The first bytes of all versions: two letters, the version, and a mark. -/
def signature : Signature :=
  .ofPattern
    ⟨Pattern.literal "YM" ++
      [.anyOf [.exact 0x32, .exact 0x33, .exact 0x35, .exact 0x36],
       .anyOf (Pattern.literal "!" ++ Pattern.literal "b")], by decide⟩
    18

/-! ### Plain frames -/

/-- The size of a version word. -/
def versionSize : Nat := 4

/-- The size of a frame of 14 registers. -/
def plainFrame : Nat := 14

/-- A recording of as many whole frames as fit between the version and the last `trailer` bytes. -/
def parsePlain (w : Window) (trailer : Nat) (format : String) : Except DecodeError Recording := do
  if w.size < versionSize + trailer then throw .truncated
  let count := (w.size - versionSize - trailer) / plainFrame
  if count = 0 then throw .noFrames
  return {
    info := { format, frameCount := some count }
    frames := (versionSize, versionSize + count * plainFrame)
    size := w.size }

/-! ### Frames with a header -/

/-- The word behind the version. -/
def magic : String := "LeOnArD!"

/-- The size of the header, extra data apart. -/
def headerSize : Nat := 34

/-- The size of a frame of 16 registers. -/
def fullFrame : Nat := 16

/-- The most frames of a recording, more than half an hour. -/
def maxFrames : Nat := 100000

/-- The word behind the frames. -/
def endMarker : String := "End!"

/-- What a header says. -/
structure Header where
  frames : Nat
  drums : Nat
  rate : Nat
  extra : Nat

/-- The header at the start of `w`, when all of it is there. -/
def Header.read? (w : Window) : Option Header := do
  return { frames := ← w.be32? 12, drums := ← w.be16? 20, rate := ← w.be16? 26,
           extra := ← w.be16? 32 }

/-- The offset behind `count` samples from `offset` on, each with its size before it. -/
def skipDrums (w : Window) (offset : Nat) : (count : Nat) → Except DecodeError Nat
  | 0 => .ok offset
  | count + 1 =>
    match w.be32? offset with
    | none => .error .truncated
    | some size =>
      let stop := offset + 4 + size
      if w.size < stop then .error .truncated else skipDrums w stop count

/-- The text at `offset` and the offset behind it. -/
def text (w : Window) (offset : Nat) : Except DecodeError (String × Nat) :=
  if w.size < offset then .error .truncated
  else match w.terminated? offset with
    | some found => .ok found
    | none => .error (.unterminatedText offset)

/-- A recording with a header. A rate of zero leaves the usual one. -/
def parseFull (w : Window) (format : String) : Except DecodeError Recording := do
  if !w.holdsAt versionSize (Window.ascii magic) then throw .wrongSignature
  let some header := Header.read? w | throw .truncated
  if header.frames = 0 ∨ maxFrames < header.frames then throw (.frameCount header.frames)
  let offset ← skipDrums w (headerSize + header.extra) header.drums
  let (title, offset) ← text w offset
  let (author, offset) ← text w offset
  let (comments, offset) ← text w offset
  let stop := offset + header.frames * fullFrame
  if !w.holdsAt stop (Window.ascii endMarker) then throw .noEndMarker
  let info : TuneInfo := { title, author, comments, format, frameCount := some header.frames }
  return {
    info := if header.rate = 0 then info else { info with frameRate := header.rate }
    frames := (offset, stop)
    size := stop + endMarker.length }

/-! ### Versions -/

/-- The recording at the start of `w`. -/
def parse (w : Window) : Except DecodeError Recording :=
  let begins (word : String) : Bool := w.holdsAt 0 (Window.ascii word)
  if begins "YM2!" || begins "YM3!" then parsePlain w 0 "YM3"
  else if begins "YM3b" then parsePlain w 4 "YM3b"
  else if begins "YM5!" then parseFull w "YM5"
  else if begins "YM6!" then parseFull w "YM6"
  else .error .wrongSignature

/-- Whether a YM file is at the start of `w`. -/
def check (w : Window) : Bool := signature.matchesStart w && (parse w).isOk

/-- The recording as a tune. -/
def read (w : Window) : Except DecodeError SingleTune := do
  let recording ← parse w
  let some data := w.sub? 0 recording.size | throw .truncated
  return {
    tune := ⟨recording.info, data, none⟩
    consumed := recording.size
    fixed := recording.frames
    properties := recording.info.toProperties }

/-- The plugin for YM files. -/
def plugin : Plugin where
  id := "YM"
  description := "YM register dump"
  features := .deviceAy
  signature := signature
  check := check
  decoder := .player [] read

end Ym

end Chiptune
