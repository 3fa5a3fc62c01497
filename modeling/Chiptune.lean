import Chiptune.Archive.Hobeta
import Chiptune.Archive.Ice
import Chiptune.Archive.Lha
import Chiptune.Archive.Lha.AdaptiveCode
import Chiptune.Archive.Lha.AdaptiveMethod
import Chiptune.Archive.Lha.BitReader
import Chiptune.Archive.Lha.BlockMethod
import Chiptune.Archive.Lha.CodeTree
import Chiptune.Archive.Lha.Header
import Chiptune.Archive.Lha.History
import Chiptune.Archive.Scl
import Chiptune.Archive.TrdosName
import Chiptune.Bytes.Checksum
import Chiptune.Bytes.Number
import Chiptune.Bytes.Window
import Chiptune.Claims
import Chiptune.CommandLine.Arguments
import Chiptune.CommandLine.Files
import Chiptune.CommandLine.Report
import Chiptune.CommandLine.Run
import Chiptune.Decimal.Shortest
import Chiptune.DecodeError
import Chiptune.Json.Basic
import Chiptune.Json.Parser
import Chiptune.Json.Printer
import Chiptune.Json.Properties
import Chiptune.Location
import Chiptune.Main
import Chiptune.Pattern.Basic
import Chiptune.Pattern.ByteClass
import Chiptune.Pattern.Parser
import Chiptune.Pattern.SyntaxError
import Chiptune.Plugin.Basic
import Chiptune.Plugin.Builtin
import Chiptune.Plugin.Capabilities
import Chiptune.Plugin.Catalog
import Chiptune.Properties
import Chiptune.Scan.Detector
import Chiptune.Scan.Finding
import Chiptune.Scan.Frame
import Chiptune.Scan.Lookahead
import Chiptune.Scan.Observer
import Chiptune.Scan.Opening
import Chiptune.Scan.Record
import Chiptune.Scan.Stack
import Chiptune.Scan.Walk
import Chiptune.ScanError
import Chiptune.Settings
import Chiptune.Signature
import Chiptune.Text.Blank
import Chiptune.Text.Csv
import Chiptune.Text.Numeral
import Chiptune.Text.Terminated
import Chiptune.Text.Utf8
import Chiptune.Tune.Ay
import Chiptune.Tune.Ay.Reader
import Chiptune.Tune.Sndh
import Chiptune.Tune.Ym
import Chiptune.TuneInfo
import Chiptune.TunePath
import Chiptune.Proofs.Course
import Chiptune.Proofs.TunePaths
import Chiptune.Proofs.ByPath
import Chiptune.Proofs.Exhaustive
import Chiptune.Proofs.FewerPlugins
import Chiptune.Proofs.Outcomes
import Chiptune.Proofs.Agreement
import Chiptune.Proofs.Extents
import Chiptune.Proofs.Decoding
import Chiptune.Proofs.WrittenBytes
import Chiptune.Proofs.Promises
import Chiptune.Proofs.Guarded.Basic
import Chiptune.Proofs.Guarded.Archives
import Chiptune.Proofs.Guarded.Ice
import Chiptune.Proofs.Guarded.Ay
import Chiptune.Proofs.Guarded.Sndh
import Chiptune.Proofs.Guarded.Ym
import Chiptune.Proofs.Faultless
import Chiptune.Proofs.Relocation
import Chiptune.Proofs.SelfDelimiting
import Chiptune.Proofs.DecodeLimit
import Chiptune.Proofs.Ledger
import Chiptune.Proofs.Orderly
import Chiptune.Proofs.Refinement
import Chiptune.Proofs.Moves
import Chiptune.Proofs.Histories
import Chiptune.Proofs.EntryNames
import Chiptune.Proofs.DistinctPaths
import Chiptune.Proofs.FrameSizes
import Chiptune.Proofs.PropertyValues
import Chiptune.Proofs.Unplaced
import Chiptune.Proofs.Nesting
import Chiptune.Proofs.GrantsInTurn
import Chiptune.Proofs.Endings
import Chiptune.Proofs.Inheritance
import Chiptune.Proofs.Subpaths
import Chiptune.Proofs.Grammar
import Chiptune.Proofs.ReadConditions
import Chiptune.Proofs.ReadCounts
import Chiptune.Proofs.Compile
import Chiptune.Proofs.RoundTrip
import Chiptune.Proofs.FaultPlaces
import Chiptune.Proofs.LocatedFaults
import Chiptune.Proofs.LeftToRight
import Chiptune.Proofs.PinpointedFaults
import Chiptune.Proofs.FirstMatches
import Chiptune.Proofs.PlainScans
import Chiptune.Proofs.Accounts
import Chiptune.Proofs.Candidates
import Chiptune.Proofs.SignatureScans
import Chiptune.Proofs.ForwardDecoder
import Chiptune.Proofs.BackwardWriting
import Chiptune.Proofs.OutputAccesses
import Chiptune.Proofs.ModuleSizes
import Chiptune.Proofs.WrappedFiles
import Chiptune.Proofs.DiskImages
import Chiptune.Proofs.FilesOfImages
import Chiptune.Proofs.AlteredBytes
import Chiptune.Proofs.WrittenTexts
import Chiptune.Proofs.WrittenRecordings
import Chiptune.Proofs.TagRounds
import Chiptune.Proofs.WrittenTags
import Chiptune.Proofs.PathOperations
import Chiptune.Proofs.CatalogOrder
import Chiptune.Proofs.WindowCuts
import Chiptune.Proofs.LongerFiles
import Chiptune.Proofs.LinkedFiles
import Chiptune.Proofs.ModuleBytes
import Chiptune.Proofs.WrittenJson
import Chiptune.Proofs.WrittenSettings
import Chiptune.Proofs.WrittenProperties
import Chiptune.Proofs.Locations
import Chiptune.Proofs.ReportedPlaces
