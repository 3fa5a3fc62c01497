import Chiptune.Scan.Frame

namespace Chiptune

/-!
# Opening archives

`Frame.open?` tries an archive plugin at the offset of a frame, and `Scan.children` gives the frames
for the entries.
-/

/-- The archive that a decoder opens at the start of `w`. -/
def Decoder.contents? (settings : Settings) (w : Window) : Decoder → Option Unpacked
  | .archive unpack => (unpack settings w).toOption
  | _ => none

/-- An archive that was opened: the plugin, the contents, the number of bytes it claims, and the
    ledger with that claim. -/
structure Opened where
  plugin : Plugin
  contents : Unpacked
  claim : Nat
  claims : Claims

namespace Frame

/-- The archive that `p` opens at the offset, when there is one and its claim is granted. -/
def open? (f : Frame) (settings : Settings) (p : Plugin) : Option Opened :=
  if p.check f.rest then do
    let contents ← p.decoder.contents? settings f.rest
    let claim := min contents.consumed f.rest.size
    let claims ← f.archiveClaims.add? ⟨f.offset, claim⟩
    return ⟨p, contents, claim, claims⟩
  else none

/-- The frame once the archive at its offset has been opened. -/
def behind (f : Frame) (opened : Opened) : Frame :=
  { f with phase := .players opened.claim, archiveClaims := opened.claims }

end Frame

/-- The entries that hold bytes, without those named entries that would overlap another one in the
    ledger. -/
def consistent (origins : Claims) : List Entry → List Entry
  | [] => []
  | entry :: rest =>
    if entry.data.isEmpty then consistent origins rest
    else match entry.name, entry.origin with
      | some _, some origin =>
        match origins.add? origin with
        | some origins => entry :: consistent origins rest
        | none => consistent origins rest
      | _, _ => entry :: consistent origins rest

namespace Scan

/-- Whether a tune that is looked for can be in a container with the given path. -/
def mayHold (s : Scan) (path : TunePath) : Bool := s.target.all (·.startsWith path)

/-- The properties of everything inside an archive. -/
def inherited (f : Frame) (opened : Opened) : Properties :=
  (f.properties.overlay opened.contents.properties).pushContainer opened.plugin.id

/-- The path of an entry. Packed data has that of its archive. -/
def entryPath (f : Frame) (entry : Entry) : TunePath :=
  match entry.name with
  | some name => f.located.append name
  | none => f.located

/-- The frames for the entries of an archive, in their order. -/
def children (s : Scan) (f : Frame) (opened : Opened) : List Frame :=
  let properties := inherited f opened
  let entries := consistent (.empty .shared f.rest.size) opened.contents.entries
  (entries.filter fun entry => s.mayHold (entryPath f entry)).map fun entry =>
    .start entry.data (entryPath f entry) properties (f.depth + 1) s.catalog

/-- The message about an archive of which `kept` entries are scanned. -/
def openedMessage (f : Frame) (opened : Opened) (kept : Nat) : String :=
  s!"{opened.plugin.id} at '{f.located.render}': {kept} of {opened.contents.entries.length} entries"

end Scan

end Chiptune
