import Chiptune.Claims
import Chiptune.DecodeError
import Chiptune.Plugin.Capabilities
import Chiptune.Settings
import Chiptune.Signature
import Chiptune.TuneInfo

namespace Chiptune

/-!
# Plugins

A `Plugin` recognises one format. What it does with the data depends on the kind of its `Decoder`:
an archive is unpacked into entries that are scanned again, a player reads one tune, a multitrack
plugin reads several.

* `Plugin.locate` — where the format begins in data that it may follow a stub of player code in;
* `Plugin.lookahead` — where the format can begin next.
-/

/-! ### Results of decoding -/

/-- A file of an archive. Packed data has one entry without a name. `origin` tells where the bytes
    stand in the archive, when they stand there as they are. -/
structure Entry where
  name : Option String
  origin : Option Region
  data : Window

/-- An opened archive: its entries in order, the number of bytes that belong to it, and what
    everything inside inherits. -/
structure Unpacked where
  entries : List Entry
  consumed : Nat
  properties : Properties := ∅

/-- A tune that can be played: its description, the bytes of its module, and its number among the
    tunes of the module, counted from one. -/
structure Tune where
  info : TuneInfo
  data : Window
  track : Option Nat := none

/-- A tune and the properties of it alone. -/
structure Track where
  tune : Tune
  properties : Properties

/-- The tunes of a module: the number of bytes that belong to it, the stretch of them that makes the
    music however it is packaged, and the properties that all tunes share. -/
structure TuneSet where
  consumed : Nat
  fixed : Nat × Nat
  properties : Properties
  tracks : List Track

/-- A module of one tune. -/
structure SingleTune where
  tune : Tune
  consumed : Nat
  fixed : Nat × Nat
  properties : Properties

/-- A single tune as a set of tunes. -/
def SingleTune.toTuneSet (s : SingleTune) : TuneSet :=
  ⟨s.consumed, s.fixed, s.properties, [⟨s.tune, ∅⟩]⟩

/-! ### Kinds of plugins -/

/-- What a plugin does with data of its format. `unpack` is also told the settings of the scan, which
    say how many bytes packed data may unpack to. `stubs` are signatures of player code that may come
    before the module. -/
inductive Decoder where
  | archive (unpack : Settings → Window → Except DecodeError Unpacked)
  | player (stubs : List Signature) (read : Window → Except DecodeError SingleTune)
  | multitrack (stubs : List Signature) (read : Window → Except DecodeError TuneSet)

namespace Decoder

/-- The signatures of player code that may come first. -/
def stubs : Decoder → List Signature
  | archive _ => []
  | player stubs _ => stubs
  | multitrack stubs _ => stubs

/-- Whether the decoder opens archives. -/
def isArchive : Decoder → Bool
  | archive _ => true
  | _ => false

/-- The name of the kind. -/
def kind : Decoder → String
  | archive _ => "archive"
  | player .. => "player"
  | multitrack .. => "multitrack"

/-- The flags that all plugins of the kind have. -/
def capabilities : Decoder → Capabilities
  | archive _ => .container
  | player .. => .playable
  | multitrack .. => .playable ||| .multitrack

end Decoder

/-- A recogniser of one format. `check` is the full test of the start of data, `signature` a quick
    one that everything `check` admits should pass. -/
structure Plugin where
  id : String
  description : String
  features : Capabilities
  signature : Signature
  check : Window → Bool := signature.matchesStart
  decoder : Decoder

namespace Plugin

/-- The flags of the plugin and of its kind. -/
def capabilities (p : Plugin) : Capabilities := p.features ||| p.decoder.capabilities

/-- The kind and the format, for diagnostics. -/
def describe (p : Plugin) : String := s!"{p.decoder.kind.capitalize}({p.description})"

/-- The number of bytes before the module at the start of `w`: none, or those of a stub. -/
def locate (p : Plugin) (w : Window) : Option Nat :=
  if p.check w then some 0
  else p.decoder.stubs.findSome? fun stub =>
    let skip := stub.pattern.length
    if stub.matchesStart w && skip < w.size && p.check (w.drop skip) then some skip else none

/-- The least offset behind the start where the format or a stub can begin, or the size of the
    data. -/
def lookahead (p : Plugin) (w : Window) : Nat :=
  p.decoder.stubs.foldl (fun next stub => min next (stub.nextMatch w)) (p.signature.nextMatch w)

end Plugin

end Chiptune
