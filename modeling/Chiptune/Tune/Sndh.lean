import Chiptune.Bytes.Number
import Chiptune.Plugin.Basic
import Chiptune.Text.Terminated

namespace Chiptune

/-!
# SNDH files

An SNDH file is code for a 68000 processor that plays tunes on a sound chip. The code begins with a
jump over a header of tags, which describe the tunes.

* `Sndh.Field` — what a tag can say, and the words it begins with;
* `Sndh.Header.read` — the effect of one tag on the header;
* `Sndh.parse` — the whole header;
* `Sndh.read` — the tunes of a file.

Numbers have the high byte first. A file may follow the header of an executable, which is a stub.
-/

namespace Sndh

/-- What the tags of a file say. Lengths in frames and in seconds, and names, are those of the first
    tunes; a length of zero is not known. -/
structure Header where
  title : String := ""
  author : String := ""
  year : String := ""
  ripper : String := ""
  converter : String := ""
  trackCount : Nat := 1
  defaultTrack : Nat := 1
  rate : Nat := 50
  frames : List Nat := []
  seconds : List Nat := []
  names : List String := []
deriving DecidableEq

/-- Where the word `SNDH` stands, after the jump and the entry points. -/
def magicOffset : Nat := 12

/-- The word behind the entry points. -/
def magic : String := "SNDH"

/-- Where the tags begin. -/
def tagsOffset : Nat := 16

/-- The most tunes that a file can have. -/
def maxTracks : Nat := 128

/-- The first byte of a jump. -/
def jump : UInt8 := 0x60

/-- A jump and the magic word. -/
def signature : Signature :=
  .ofPattern ⟨.exact jump :: List.replicate 11 .any ++ Pattern.literal magic, by decide⟩ 0

/-- The header of an executable: a jump of a known distance over 26 bytes. -/
def executable : Signature :=
  .ofPattern ⟨.exact jump :: .exact 0x1a :: List.replicate 26 .any, by decide⟩ 0

/-! ### Tags -/

/-- What a tag is about. -/
inductive Field where
  | title | author | year | ripper | converter
  /-- The lengths of the tunes in seconds. -/
  | seconds
  /-- The lengths of the tunes in frames. -/
  | frames
  /-- The names of the tunes. -/
  | names
  /-- The number of tunes. -/
  | trackCount
  /-- The tune to play first. -/
  | defaultTrack
  /-- The number of frames in a second. -/
  | rate
deriving DecidableEq, Repr

/-- The words that tags begin with. -/
def fieldWords : List (String × Field) :=
  [("TITL", .title), ("COMM", .author), ("YEAR", .year), ("RIPP", .ripper), ("CONV", .converter),
   ("TIME", .seconds), ("FRMS", .frames), ("#!SN", .names), ("##", .trackCount),
   ("!#", .defaultTrack), ("TA", .rate), ("TB", .rate), ("TC", .rate), ("TD", .rate),
   ("!V", .rate)]

/-- The word behind the last tag. -/
def endWord : String := "HDNS"

/-- The field of the tag at `pos`, and the offset behind the word that it begins with. -/
def fieldAt? (w : Window) (pos : Nat) : Option (Field × Nat) :=
  (fieldWords.find? fun e => w.holdsAt pos (Window.ascii e.1)).map fun e => (e.2, pos + e.1.length)

theorem lt_of_fieldAt? {w : Window} {pos start : Nat} {field : Field}
    (h : fieldAt? w pos = some (field, start)) : pos < start := by
  obtain ⟨e, hfind, heq⟩ := Option.map_eq_some_iff.1 h
  have hword : ∀ e ∈ fieldWords, 0 < e.1.length := by decide
  have := hword e (List.mem_of_find?_eq_some hfind)
  have : pos + e.1.length = start := congrArg Prod.snd heq
  omega

/-- The numbers of `width` bytes from `start` on, `count` of them or as many as there are. -/
def numbers (w : Window) (width start : Nat) : (count : Nat) → List Nat
  | 0 => []
  | count + 1 =>
    match w.bytes? start width with
    | some bytes => valueBE bytes :: numbers w width (start + width) count
    | none => []

/-- A text without blanks at its ends, and the offset behind it. -/
def trimmed (w : Window) (start : Nat) : String × Nat :=
  let (text, next) := w.textFrom start
  (trimBlank text, next)

/-- The number of two digits at `start`, or one, brought into the range of track counts. -/
def trackCountAt (w : Window) (start : Nat) : Nat :=
  let digits := trimBlank ((w.drop start).take 2).text
  min maxTracks (max 1 ((Numeral.parse? UInt64.size digits).getD 1))

/-- The header after a tag about `field` whose value is at `start`, and the offset behind the tag.
    A name is found by its distance from the first of the distances. -/
def Header.read (h : Header) (w : Window) (start : Nat) : Field → Header × Nat
  | .title => let (text, next) := trimmed w start; ({ h with title := text }, next)
  | .author => let (text, next) := trimmed w start; ({ h with author := text }, next)
  | .year => let (text, next) := trimmed w start; ({ h with year := text }, next)
  | .ripper => let (text, next) := trimmed w start; ({ h with ripper := text }, next)
  | .converter => let (text, next) := trimmed w start; ({ h with converter := text }, next)
  | .seconds =>
    let values := numbers w 2 start h.trackCount
    ({ h with seconds := h.seconds ++ values }, start + 2 * values.length)
  | .frames =>
    let values := numbers w 4 start h.trackCount
    ({ h with frames := h.frames ++ values }, start + 4 * values.length)
  | .names =>
    let found := (numbers w 2 start h.trackCount).map fun distance =>
      (trimmed w (start + distance)).1
    ({ h with names := h.names ++ found }, start + 2 * h.trackCount)
  | .trackCount => ({ h with trackCount := trackCountAt w start }, start + 2)
  | .defaultTrack =>
    let (text, next) := trimmed w start
    ({ h with defaultTrack := (Numeral.parse? UInt64.size text).getD 1 }, next)
  | .rate =>
    let (text, next) := trimmed w start
    let rate := (Numeral.parse? UInt32.size text).getD 0
    (if rate = 0 then h else { h with rate }, next)

theorem Header.le_read (h : Header) (w : Window) (start : Nat) (field : Field) :
    start ≤ (h.read w start field).2 := by
  have hlt : start ≤ (trimmed w start).2 := Nat.le_of_lt (w.lt_textFrom start)
  cases field
  case seconds | frames | names | trackCount => exact Nat.le_add_right ..
  all_goals exact hlt

/-- The header after the tags from `pos` up to the end word, or up to `stop`. Whatever is no tag is
    passed over byte by byte. -/
def Header.readAll (h : Header) (w : Window) (stop pos : Nat) : Header :=
  if pos + 4 ≤ stop then
    if w.holdsAt pos (Window.ascii endWord) then h
    else match hfield : fieldAt? w pos with
      | none => h.readAll w stop (pos + 1)
      | some (field, start) =>
        (h.read w start field).1.readAll w stop (h.read w start field).2
  else h
termination_by stop - pos
decreasing_by
  · omega
  · have := lt_of_fieldAt? hfield
    have := h.le_read w start field
    omega

/-! ### Header -/

/-- The distance of the jump at the start, which leads behind the tags: a byte, or a word when that
    byte is zero. -/
def jumpDistance (w : Window) : Nat :=
  match w[1]? with
  | some short => if short = 0 then (w.be16? 2).getD 0 else short.toNat
  | none => 0

/-- The header with the first track as default, if its own default is none of the tracks. -/
def Header.withDefault (h : Header) : Header :=
  if h.defaultTrack = 0 ∨ h.trackCount < h.defaultTrack then { h with defaultTrack := 1 } else h

/-- The header of the file at the start of `w`. -/
def parse (w : Window) : Except DecodeError Header := do
  if w.size < tagsOffset then throw .truncated
  if !(w.holdsAt 0 [jump] && w.holdsAt magicOffset (Window.ascii magic)) then throw .wrongSignature
  let stop := min (jumpDistance w + 2) w.size
  let header : Header := {}
  return (header.readAll w stop tagsOffset).withDefault

/-! ### Tunes -/

/-- Whether an SNDH file is at the start of `w`. -/
def check (w : Window) : Bool := signature.matchesStart w && (parse w).isOk

/-- The name of the format. -/
def formatName : String := "SNDH"

/-- The length of a tune in frames, tunes counted from zero. -/
def Header.frameCount (h : Header) (track : Nat) : Option Nat :=
  match h.frames[track]?.getD 0, h.seconds[track]?.getD 0 with
  | 0, 0 => none
  | 0, seconds => some (seconds * h.rate)
  | frames, _ => some frames

/-- What is known of the file as a whole. -/
def Header.common (h : Header) : TuneInfo where
  title := h.title
  author := h.author
  year := h.year
  format := formatName
  frameRate := h.rate

/-- What is known of a tune, tunes counted from zero. -/
def Header.info (h : Header) (track : Nat) : TuneInfo :=
  let name := h.names[track]?.getD ""
  { h.common with
    title := if name.isEmpty then h.title else name
    frameCount := h.frameCount track }

/-- The properties of the file as a whole. -/
def Header.toProperties (h : Header) : Properties :=
  let common := h.common.toProperties
  let started := if 1 < h.defaultTrack then
      common.set Key.defaultTrack (.ofNat h.defaultTrack)
    else common
  if h.ripper.isEmpty then started
  else started.set Key.comment (.text s!"Ripped by {h.ripper}")

/-- The tunes of the file. All data belongs to it. -/
def read (w : Window) : Except DecodeError TuneSet := do
  let h ← parse w
  let tracks := (List.range h.trackCount).map fun i =>
    let info := h.info i
    ⟨⟨info, w, some (i + 1)⟩, info.toProperties⟩
  return { consumed := w.size, fixed := (0, w.size), properties := h.toProperties, tracks }

/-- The plugin for SNDH files. -/
def plugin : Plugin where
  id := "SNDH"
  description := "SNDH module"
  features := .deviceAy ||| .cpuM68k
  signature := signature
  check := check
  decoder := .multitrack [executable] read

end Sndh

end Chiptune
