import Chiptune.Scan.Frame

namespace Chiptune

/-!
# Looking ahead

Where nothing was found, a scan goes on at the next offset where any plugin could match. Each plugin
is searched for once; its candidate is kept until the scan has passed it.
-/

namespace Frame

/-- The next offset where `p` could match, when `known` is what is known of it. -/
def candidate (f : Frame) (p : Plugin) (known : Nat) : Option Nat :=
  if f.offset < known then some known
  else
    let ahead := p.lookahead f.rest
    if ahead < f.rest.size then some (f.offset + ahead) else none

/-- The candidates, up to date for the plugins that are tried. -/
def refresh (f : Frame) (tried : Plugin → Bool) (c : Catalog) : List (Option Nat) :=
  List.zipWith (fun p slot => if tried p then slot.bind (f.candidate p) else slot)
    c.plugins f.candidates

/-- The least candidate of the plugins that are tried, or the end of the data. -/
def nextOffset (f : Frame) (tried : Plugin → Bool) (c : Catalog) : Nat :=
  (c.plugins.zip f.candidates).foldl (fun next e =>
    if tried e.1 then min next (e.2.getD next) else next) f.data.size

end Frame

/-- Whether `p` is tried in a container of the given depth. -/
def Scan.tries (s : Scan) (skips : Plugin → Bool) (depth : Nat) (p : Plugin) : Bool :=
  (s.opensAt depth || !p.decoder.isArchive) && !skips p

/-- The frame with up-to-date candidates, and the number of bytes to the next of them, one at
    least. -/
def Scan.lookAhead (s : Scan) (skips : Plugin → Bool) (f : Frame) : Frame × Nat :=
  let tried := s.tries skips f.depth
  let f := { f with candidates := f.refresh tried s.catalog }
  (f, max 1 (f.nextOffset tried s.catalog - f.offset))

end Chiptune
