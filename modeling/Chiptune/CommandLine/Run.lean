import Chiptune.CommandLine.Files
import Chiptune.CommandLine.Report
import Chiptune.Plugin.Catalog
import Chiptune.Scan.Detector

namespace Chiptune

/-!
# The command line

`CommandLine.run` does what a command line asks for, with any catalog and any access to files: it
reads the settings, orders the catalog, and scans all files. The reports are in the order of the
files.
-/

namespace CommandLine

/-- Why nothing was scanned, although the command line is right. -/
inductive Failure where
  /-- The file with the settings cannot be read. -/
  | unreadable (path : String)
  /-- The settings are not accepted. -/
  | scan (error : ScanError)
deriving DecidableEq

/-- The reason in words. -/
def Failure.message : Failure → String
  | unreadable path => s!"cannot read settings from {path}"
  | scan error => error.message

/-- What comes of a command line. -/
inductive Outcome where
  /-- The output. -/
  | printed (output : String)
  /-- The settings are at fault. -/
  | failed (failure : Failure)
  /-- The command line is wrong. -/
  | misused
deriving DecidableEq

/-- The exit code of the program. -/
def Outcome.code : Outcome → UInt32
  | printed _ => 0
  | failed _ => 1
  | misused => 2

/-- The text on standard output. -/
def Outcome.output : Outcome → String
  | printed output => output
  | _ => ""

/-! ### Settings -/

/-- The settings with the changes that the command line makes. -/
def adjust (a : Arguments) (s : Settings) : Settings :=
  { s with
    maxDepth := (a.maxDepth.map (max 1)).getD s.maxDepth
    scanRaw := s.scanRaw && !a.noRawScan
    pluginOrder := if a.order.isEmpty then s.pluginOrder else a.order }

/-- The settings in a file with the given bytes. -/
def settingsOf (path : String) (bytes : Option ByteArray) : Except Failure Settings :=
  match bytes.bind String.fromUTF8? with
  | none => .error (.unreadable path)
  | some text => (Settings.parse text).mapError fun e => .scan (.settings e)

/-- The detector for a catalog and the settings of a command line. -/
def detectorOf (c : Catalog) (a : Arguments) (settings : Except Failure Settings) :
    Except Failure Detector := do
  (Detector.ofCatalog c (adjust a (← settings))).mapError .scan

/-! ### Scans -/

/-- The observer that takes all records but leaves out the plugins in `skip`. Their ids are compared
    without regard to case. -/
def observer (skip : List String) : Observer Collector :=
  { Collector.observer with skips := fun _ p => skip.any fun id => id.toLower == p.id.toLower }

/-- The reports of the tunes in a file. -/
def scanFile (d : Detector) (skip : List String) (path : String) (bytes : ByteArray) :
    List Report :=
  let collector := (d.detect path (.ofByteArray bytes) (observer skip) {}).2
  collector.records.toList.map (Report.ofRecord path)

/-- Reports in the order of their files. Those of one file keep their order. -/
def sortReports (reports : List Report) : List Report :=
  reports.mergeSort fun a b => a.file ≤ b.file

variable {m : Type → Type} [Monad m]

/-- The reports of the tunes in all files below the paths. Files that cannot be read have none. -/
def scanAll (files : Files m) (d : Detector) (a : Arguments) : m (List Report) := do
  let paths ← a.paths.mapM files.below
  let reports ← paths.flatten.mapM fun path => do
    let bytes ← files.load path
    return (bytes.map (scanFile d a.skip path)).getD []
  return sortReports reports.flatten

/-- The settings that a command line refers to, before its own changes. -/
def loadSettings (files : Files m) (a : Arguments) : m (Except Failure Settings) :=
  match a.config with
  | none => return .ok {}
  | some path => return settingsOf path (← files.load path)

/-- Do what a command line asks for, with the plugins of a catalog. -/
def run (c : Catalog) (files : Files m) (words : List String) : m Outcome := do
  match Arguments.parse? words with
  | none => return .misused
  | some a =>
    match detectorOf c a (← loadSettings files a) with
    | .error failure => return .failed failure
    | .ok d =>
      if a.listPlugins then return .printed d.catalog.listing
      else return .printed (Report.renderAll (a.format.getD .text) (← scanAll files d a))

end CommandLine

end Chiptune
