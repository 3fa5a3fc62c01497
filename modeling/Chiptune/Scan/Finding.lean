import Chiptune.Bytes.Checksum
import Chiptune.Scan.Frame
import Chiptune.Scan.Record

namespace Chiptune

/-!
# Finding tunes

`Frame.find?` tries a player plugin at the offset of a frame, and `Scan.records` gives the records
of the tunes that it found.
-/

/-- The tunes that a decoder reads at the start of `w`. -/
def Decoder.tunes? (w : Window) : Decoder → Option TuneSet
  | .archive _ => none
  | .player _ read => (read w).toOption.map SingleTune.toTuneSet
  | .multitrack _ read => (read w).toOption

/-- Tunes that were found: the plugin, the data behind the stub, the tunes, the number of bytes
    claimed for them, stub included, and the ledger with that claim. -/
structure Found where
  plugin : Plugin
  body : Window
  tunes : TuneSet
  claim : Nat
  claims : Claims

/-- The number of bytes up to the end of a module of `consumed` bytes behind a stub, as far as there
    are any. It is computed in 64-bit words. -/
def claimedSize (stub consumed available : Nat) : Nat :=
  min ((stub + consumed) % UInt64.size) available

/-- What `p` finds at the offset, when it reads tunes there and its claim is granted. -/
def Frame.find? (f : Frame) (p : Plugin) : Option Found := do
  let stub ← p.locate f.rest
  let body ← f.rest.tail? stub
  let tunes ← p.decoder.tunes? body
  if tunes.tracks.isEmpty then none else
    let claim := claimedSize stub tunes.consumed f.rest.size
    let claims ← f.tuneClaims.add? ⟨f.offset, claim⟩
    return ⟨p, body, tunes, claim, claims⟩

namespace Found

/-- The bytes of the module. -/
def module (found : Found) : Window := found.body.take found.tunes.consumed

/-- The bytes of the module that make the music. -/
def fixed (found : Found) : Window :=
  (found.module.take found.tunes.fixed.2).drop found.tunes.fixed.1

/-- Whether the module has several tunes. -/
def isMultitrack (found : Found) : Bool := 1 < found.tunes.tracks.length

/-- The properties that come from the bytes of the module, whatever it says of itself. -/
def measured (found : Found) : List (String × Property) :=
  [(Key.type, .text found.plugin.id), (Key.size, .ofNat found.module.size),
   (Key.crc, .ofNat found.module.crc32.toNat), (Key.fixedCrc, .ofNat found.fixed.crc32.toNat)]

end Found

namespace Scan

/-- The path of a tune, tunes counted from zero. Only the tunes of several have a component of their
    own. -/
def tunePath (f : Frame) (found : Found) (index : Nat) : TunePath :=
  if found.isMultitrack then f.located.append s!"#{index + 1}" else f.located

/-- The properties of the place of a tune. -/
def placeProperties (s : Scan) (path : TunePath) : Properties :=
  let location := s.location.withSubpath path.render
  (∅ : Properties)
    |>.setNonEmpty Key.path location.path
    |>.setNonEmpty Key.filename location.filename
    |>.setNonEmpty Key.extension location.extension
    |>.setNonEmpty Key.subpath location.subpath
    |>.setNonEmpty Key.fullpath location.full

/-- All properties of a tune. Those of the tune come before those of the module, and these before
    those of the containers; what was measured comes before all. -/
def tuneProperties (s : Scan) (f : Frame) (found : Found) (measured : List (String × Property))
    (path : TunePath) (track : Track) : Properties :=
  let merged := (s.placeProperties path).overlay f.properties
    |>.overlay found.tunes.properties
    |>.overlay track.properties
  let chained := if found.isMultitrack then merged.pushContainer found.plugin.id else merged
  measured.foldl (fun p e => p.set e.1 e.2) chained

/-- The records of the tunes that were found, in their order. -/
def records (s : Scan) (f : Frame) (found : Found) : List Record :=
  let measured := found.measured
  found.tunes.tracks.mapIdx fun index track =>
    let path := tunePath f found index
    ⟨path, found.plugin.id, track.tune, s.tuneProperties f found measured path track⟩

/-- Whether tunes with the given path are reported. -/
def wants (s : Scan) (path : TunePath) : Bool := s.target.all (· == path)

end Scan

end Chiptune
