import Chiptune.Claims
import Chiptune.Plugin.Catalog
import Chiptune.Settings

namespace Chiptune

/-!
# Frames

A `Frame` is a container that is being scanned. Its offset moves from the start to the end of the
data. At each offset archives are tried first and then, after the entries of an archive have been
scanned, players.
-/

/-- What is tried next at the offset of a frame. `players claim` follows an archive that claimed so
    many bytes, or none. -/
inductive Phase where
  | archives
  | players (claim : Nat)
deriving DecidableEq

/-- A container at some point of its scan. `candidates` holds for each plugin of the catalog the
    next offset where it could match, as far as is known, or nothing when there is none. -/
structure Frame where
  data : Window
  path : TunePath
  properties : Properties
  depth : Nat
  offset : Nat
  phase : Phase
  archiveClaims : Claims
  tuneClaims : Claims
  candidates : List (Option Nat)

/-- What stays the same during a scan: the plugins, the settings, the location that records refer
    to, and the path of the only tune to report, if one is looked for. -/
structure Scan where
  catalog : Catalog
  settings : Settings
  location : Location
  target : Option TunePath

namespace Frame

/-- A container before its scan. -/
def start (data : Window) (path : TunePath) (properties : Properties) (depth : Nat)
    (catalog : Catalog) : Frame where
  data := data
  path := path
  properties := properties
  depth := depth
  offset := 0
  phase := .archives
  archiveClaims := .empty .disjoint data.size
  tuneClaims := .empty .disjoint data.size
  candidates := List.replicate catalog.size (some 0)

/-- Whether all offsets have been visited. -/
def isDone (f : Frame) : Bool := f.data.size ≤ f.offset

/-- The data from the offset on. -/
def rest (f : Frame) : Window := f.data.drop f.offset

/-- The path of what begins at the offset: that of the container for its start, or one component
    more. -/
def located (f : Frame) : TunePath :=
  if f.offset = 0 then f.path else f.path.append s!"+{f.offset}"

/-- The message at the end of the scan of a container. -/
def doneMessage (f : Frame) : String := s!"done '{f.path.render}' ({f.data.size} bytes)"

end Frame

/-- Whether archives inside a container of the given depth are still opened. -/
def Scan.opensAt (s : Scan) (depth : Nat) : Bool := depth < s.settings.maxDepth.toNat

end Chiptune
