import Chiptune.Archive.Hobeta
import Chiptune.Archive.Ice
import Chiptune.Archive.Lha
import Chiptune.Archive.Scl
import Chiptune.Plugin.Catalog
import Chiptune.Tune.Ay
import Chiptune.Tune.Sndh
import Chiptune.Tune.Ym

namespace Chiptune.Catalog

/-!
# The built-in catalog

All formats that the library knows: archives first, then packed data, then tunes.
-/

/-- The plugins of the library, with any way to read the members of LHA archives. -/
def pluginsWith (reader : Lha.MemberReader) : List Plugin :=
  [Hobeta.plugin, Scl.plugin, Ice.plugin, Lha.pluginWith reader, Ay.plugin, Sndh.plugin, Ym.plugin]

/-- These plugins as a catalog. -/
def builtinWith (reader : Lha.MemberReader) : Catalog where
  plugins := pluginsWith reader
  nodup := show ["HOBETA", "SCL", "ICE", "LHA", "AY", "SNDH", "YM"].Nodup by decide

/-- The catalog of the library, which reads members itself. -/
def builtin : Catalog := builtinWith Lha.openMember

end Chiptune.Catalog
