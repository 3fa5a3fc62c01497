import Chiptune.Properties
import Chiptune.Text.Blank

namespace Chiptune

/-!
# What a tune says about itself

A `TuneInfo` holds the texts and the length that a module states. `TuneInfo.toProperties` gives
them as properties; empty texts are left out.
-/

/-- Title, author and length of a tune. Lengths count frames, of which `frameRate` are played in a
    second. -/
structure TuneInfo where
  title : String := ""
  author : String := ""
  comments : String := ""
  year : String := ""
  format : String
  frameCount : Option Nat := none
  frameRate : Nat := 50

namespace TuneInfo

/-- The length in seconds, as the single-precision quotient of the frame count by the rate. -/
def duration (i : TuneInfo) : Option Float32 :=
  i.frameCount.map fun count =>
    (UInt64.ofNat count).toFloat32 / (UInt64.ofNat i.frameRate).toFloat32

/-- The properties of the tune. All texts but the format are trimmed. -/
def toProperties (i : TuneInfo) : Properties :=
  let texts := (∅ : Properties)
    |>.setNonEmpty Key.title (trimBlank i.title)
    |>.setNonEmpty Key.author (trimBlank i.author)
    |>.setNonEmpty Key.comment (trimBlank i.comments)
    |>.setNonEmpty Key.date (trimBlank i.year)
    |>.setNonEmpty Key.program i.format
  match i.frameCount with
  | some count => texts.set Key.frames (.ofNat count)
  | none => texts

end TuneInfo

end Chiptune
