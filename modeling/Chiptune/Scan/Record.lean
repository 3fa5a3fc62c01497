import Chiptune.Plugin.Basic
import Chiptune.TunePath

namespace Chiptune

/-!
# Results of a scan

A scan reports a `Record` for every tune that it finds, and a `Summary` at its end.
-/

/-- A tune, where it was found, by which plugin, and everything that is known of it. -/
structure Record where
  path : TunePath
  plugin : String
  tune : Tune
  properties : Properties

/-- The number of tunes that were reported, the number of containers that were opened, the scanned
    data among them, and whether the scan was stopped before its end. -/
structure Summary where
  modules : Nat
  frames : Nat
  cancelled : Bool
deriving DecidableEq, Repr

end Chiptune
