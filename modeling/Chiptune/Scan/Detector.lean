import Chiptune.Scan.Walk

namespace Chiptune

/-!
# Detectors

A `Detector` is a catalog with settings, ready for any number of scans.

* `Detector.detect` — report all tunes in some data;
* `Detector.find?` — the tune at a given path inside.
-/

/-- A catalog, already in the order of the settings, and the settings. -/
structure Detector where
  catalog : Catalog
  settings : Settings

namespace Detector

/-- The detector for a catalog, whose order is changed as the settings want. -/
def ofCatalog (catalog : Catalog) (settings : Settings) : Except ScanError Detector := do
  return ⟨← catalog.reorder settings.pluginOrder, settings⟩

/-- Report all tunes in `data` to an observer. The location names the data; the path inside that it
    may have comes before the path of every tune. -/
def detect {σ : Type} (d : Detector) (location : String) (data : Window) (o : Observer σ)
    (observer : σ) : Except ScanError Summary × σ :=
  let location := Location.parse location
  let root := TunePath.parse d.settings.pathSeparator location.subpath
  let scan : Scan := ⟨d.catalog, d.settings, location, none⟩
  scan.run o (.start d.catalog data root observer)

/-- The first tune in `data` whose path is the one inside of the location. Only archives on the way
    there are opened. -/
def find? (d : Detector) (location : String) (data : Window) : Option Record :=
  let location := Location.parse location
  let target := TunePath.parse d.settings.pathSeparator location.subpath
  let root := TunePath.empty d.settings.pathSeparator
  let scan : Scan := ⟨d.catalog, d.settings, location.withSubpath "", some target⟩
  let collector : Collector := { limit := some 1 }
  (scan.run Collector.observer (.start d.catalog data root collector)).2.records[0]?

end Detector

end Chiptune
